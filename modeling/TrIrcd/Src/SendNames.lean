import TrIrcd.Src.Chanmodes
import TrIrcd.Src.ChannelList
import TrIrcd.Src.Send

/-!
# `src/channel.c`: `send_names`

`send_names` answers `NAMES` for a channel. The members that the client may
see are collected in `buf`, which is sent as soon as it has come close to
`BUFSIZE`, and started again; what is left goes out at the end. `idx` is the
length of the text here, and `top` the highest index of `buf` written so far.

A line is sent by `send_me_numeric`, which writes the sender, the numeric and
the client into `nbuf`, puts the format of the numeric behind, and uses all of
it as a format. Names that may stand in there have no `%`.
-/

namespace TrIrcd

open TrIrcd.Lib

/-- `MODE_HIDEOPS` -/
def modeHideOps : Nat := 0x4000

/-- `RPL_NAMREPLY` -/
def rplNamReply : UInt64 := 353

/-- `replies[RPL_NAMREPLY]` -/
def namReplyFormat : String := ":%C 353 %s %s"

/-- A name that stands for itself in a format. -/
structure PlainName where
  bytes : List UInt8
  plain : ∀ c ∈ bytes, c ≠ 0 ∧ c ≠ 0x25

/-- `me.name`, `me.id.string` and `ServerInfo.aliasname`. -/
structure MeNames where
  name : PlainName
  idString : PlainName
  aliasname : PlainName

/-- The client that asks. `idCapable` is about its link. -/
structure NamesAsker where
  client : Nat
  name : PlainName
  name_length : name.bytes.length ≤ nickLen
  isMember : Bool
  seeHidden : Bool
  isService : Bool
  myClient : Bool
  usesAlias : Bool
  idCapable : Bool

structure NamesMember extends StatusMember where
  client : Nat
  isAnon : Bool
  isInvisible : Bool
  name_noNul : 0 ∉ name

structure NamesChannel where
  chname : List UInt8
  mode : Nat
  chname_length : chname.length ≤ channelLen

/-! ## The numeric -/

/-- The name that `send_me_numeric` speaks under. -/
def MeNames.source (me : MeNames) (cptr : NamesAsker) : PlainName :=
  if cptr.myClient ∧ cptr.usesAlias then me.aliasname
  else if cptr.idCapable then me.idString
  else me.name

/-- `send_me_numeric`, with the entry of the language table: the text. -/
def sendMeNumeric (E : PrintfEnv) (me : MeNames) (cptr : NamesAsker) (numeric : UInt64)
    (reply : String) (args : List PrintfArg) : Option (List UInt8) :=
  let c : UInt64 := if cptr.idCapable then 0x21 else 0x3a
  (E.formatText (textBytes "%c%s %N %s ") [.word c, .string (some (me.source cptr).bytes),
    .word numeric, .string (some cptr.name.bytes)]).bind fun nbuf =>
      E.formatText (nbuf ++ (textBytes reply).drop 11) args

/-! ## The names -/

/-- The flags of `send_names` in its order, and the characters in front of the
name: `CHFL_OWNER`, `CHFL_CHANOP`, `CHFL_HALFOP` and `CHFL_VOICE`. -/
def namesModes : List (Nat × UInt8) := [(0x8, 0x2e), (0x1, 0x40), (0x10, 0x25), (0x2, 0x2b)]

/-- What `send_names` is called with. -/
structure NamesCall where
  me : MeNames
  sptr : NamesAsker
  chptr : NamesChannel
  members : List NamesMember

/-- `buf` up to `idx`, `flag`, the lines that were sent, and the highest index
of `buf` that was written. -/
structure NamesSt where
  buf : List UInt8
  flag : Bool
  sent : List (List UInt8)
  top : Nat

namespace NamesCall

variable (C : NamesCall)

def mlen : Nat := C.me.name.bytes.length + nickLen + 7

def member : Bool := C.sptr.seeHidden || C.sptr.isService || C.sptr.isMember

def omembr : Bool := C.sptr.seeHidden && !C.sptr.isMember

/-- `get_flags` of the client. -/
def uflags : Nat :=
  ((C.members.find? fun cm => cm.client = C.sptr.client).map fun cm => cm.flags).getD 0

/-- `buf` up to `spos`. -/
def header : List UInt8 :=
  let visibility : UInt8 :=
    if C.chptr.mode &&& (modePrivate ||| modeSecret) = 0 then 0x3d
    else if C.chptr.mode &&& modeSecret ≠ 0 then 0x40
    else 0x2a
  [visibility, 0x20] ++ cstr C.chptr.chname ++ [0x20, 0x3a]

/-- The member is not passed over. -/
def shows (cm : NamesMember) : Bool :=
  !cm.isAnon && !(cm.isInvisible && !C.member) &&
    !(C.chptr.mode &&& modeAnonymous ≠ 0 && C.sptr.client ≠ cm.client)

/-- The flags of members are shown. -/
def showsFlags : Bool := C.chptr.mode &&& modeHideOps = 0 || C.omembr || C.uflags ≠ 0

/-- A member in a line, up to the space. -/
def nick (cm : NamesMember) : List UInt8 :=
  (if C.showsFlags then
    namesModes.filterMap fun mode => if cm.flags &&& mode.1 ≠ 0 then some mode.2 else none
  else []) ++ cm.name

/-- The state in front of the loop. -/
def start : NamesSt := ⟨C.header, true, [], C.header.length⟩

/-- The loop for one member. -/
def step (s : NamesSt) (cm : NamesMember) : NamesSt :=
  if ¬ C.shows cm then s
  else
    let buf := s.buf ++ C.nick cm ++ [0x20]
    let top := max s.top buf.length
    if C.mlen + buf.length + nickLen > bufSize - 3 then ⟨C.header, false, s.sent ++ [buf], top⟩
    else ⟨buf, true, s.sent, top⟩

/-- The state behind the loop. -/
def loop : NamesSt := C.members.foldl C.step C.start

/-- `send_names`: the texts of the lines. -/
def sendNames : List (List UInt8) :=
  if C.loop.flag then C.loop.sent ++ [C.loop.buf] else C.loop.sent

/-- The message of a line. -/
def reply (E : PrintfEnv) (line : List UInt8) : Option (List UInt8) :=
  sendMeNumeric E C.me C.sptr rplNamReply namReplyFormat [.string (some line)]

end NamesCall

end TrIrcd
