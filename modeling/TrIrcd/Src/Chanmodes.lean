import TrIrcd.Src.Bans
import TrIrcd.Src.Ircsprintf

/-!
# `src/chanmodes.c`: mode lines

The functions that announce many modes of a channel at once collect letters in
`modebuf` and parameters in `parabuf`, and send both as a line when one of two
limits is reached: `MAXMODEPARAMS` parameters or `MODEBUFLEN` bytes of them.
The lines are what the functions answer, without the sender and the channel in
front. Each is sent to the members of the channel, to the servers or to one of
them.

The buffers are C strings. Of an entry without a string `send_nuh_list` and
`remove_nuh_list` take the length all the same, which is a `none`.

`send_channel_modes` tells a server of a channel in `SJOIN` lines. The modules
that fill in `modetab` are not part of the server, so the table is any. It and
`channel_modes` put texts into arrays without a look at how large they are, and
what is written behind one of them is a `none`.
-/

namespace TrIrcd

/-- `MODEBUFLEN` -/
def modeBufLen : Nat := 200

/-- `MAXMODEPARAMS` -/
def maxModeParams : Nat := 12

/-- A line: `%s %s` with these. -/
structure ModeLine where
  mbuf : List UInt8
  pbuf : List UInt8
deriving DecidableEq, Repr

/-! ## Lists of masks -/

/-- What is collected for the next line. -/
structure ModeBuf where
  mbuf : List UInt8
  pbuf : List UInt8
  count : Nat
deriving DecidableEq, Repr

def ModeBuf.line (b : ModeBuf) : ModeLine := ⟨b.mbuf, b.pbuf⟩

/-- One entry in the loops of the three functions: what is collected then, and
the line that is sent. -/
def addNuh (sign letter : UInt8) (nuhstr : List UInt8) (b : ModeBuf) :
    ModeBuf × List ModeLine :=
  let fits := b.pbuf.length + nuhstr.length + 10 < modeBufLen
  let b :=
    if fits then
      { mbuf := b.mbuf ++ [letter]
        pbuf := (if b.pbuf ≠ [] then b.pbuf ++ [0x20] else b.pbuf) ++ nuhstr
        count := b.count + 1 }
    else b
  let send := (¬ fits ∧ b.pbuf ≠ []) ∨ b.count = maxModeParams
  if send then
    (if b.count ≠ maxModeParams then ⟨[sign, letter], nuhstr, 1⟩ else ⟨[sign], [], 0⟩, [b.line])
  else (b, [])

/-- The loop of `send_nuh_list` and `remove_nuh_list`. -/
def nuhLoop (sign letter : UInt8) : NuhList → ModeBuf → Option (ModeBuf × List ModeLine)
  | [], b => some (b, [])
  | none :: list, b => nuhLoop sign letter list b
  | some bp :: list, b =>
      bp.nuhstr.bind fun nuhstr =>
        let (b, sent) := addNuh sign letter nuhstr b
        (nuhLoop sign letter list b).map fun (b, lines) => (b, sent ++ lines)

/-- `send_nuh_list` -/
def sendNuhList (list : NuhList) (letter : UInt8) (mbuf pbuf : List UInt8) :
    Option (List ModeLine) :=
  let count := if pbuf ≠ [] then 1 else 0
  (nuhLoop 0x2b letter list ⟨mbuf, pbuf, count⟩).map fun (b, lines) =>
    if 1 < b.mbuf.length ∨ b.pbuf ≠ [] then lines ++ [b.line] else lines

/-- `remove_nuh_list`, and what is left of the list. -/
def removeNuhList (list : NuhList) (letter : UInt8) : Option (List ModeLine × NuhList) :=
  (nuhLoop 0x2d letter list ⟨[0x2d], [], 0⟩).map fun (b, lines) =>
    (if b.pbuf ≠ [] then lines ++ [b.line] else lines, list.filter Option.isNone)

/-- A mask that is one of the client's. -/
def nuhMatches (cptr : BanClient) (user : BanUser) (nuhstr : List UInt8) : Bool :=
  let targhost := makeNickUserHost cptr.name user.username user.host
  let fakeuhost := makeNickUserHost cptr.name user.username user.fakehost
  let targip := makeNickUserHost cptr.name user.username cptr.hostip
  ircMatch nuhstr targhost = 0 ∨ ircMatch nuhstr targip = 0 ∨ ircMatch nuhstr fakeuhost = 0

/-- The loop of `remove_matching_nuhs`, and what is left of the list. -/
def matchingLoop (hit : List UInt8 → Bool) (letter : UInt8) :
    NuhList → ModeBuf → ModeBuf × List ModeLine × NuhList
  | [], b => (b, [], [])
  | none :: list, b =>
      let (b, lines, rest) := matchingLoop hit letter list b
      (b, lines, none :: rest)
  | some tmpA :: list, b =>
      match tmpA.nuhstr.filter hit with
      | none =>
          let (b, lines, rest) := matchingLoop hit letter list b
          (b, lines, some tmpA :: rest)
      | some nuhstr =>
          let (b, sent) := addNuh 0x2d letter nuhstr b
          let (b, lines, rest) := matchingLoop hit letter list b
          (b, sent ++ lines, rest)

/-- `remove_matching_nuhs`, and what is left of the list. The client is
`cptr.cut` afterwards, unless it is not a person. -/
def removeMatchingNuhs (cptr : BanClient) (list : NuhList) (letter : UInt8) :
    List ModeLine × NuhList :=
  match cptr.user with
  | none => ([], list)
  | some user =>
      if ¬ cptr.isPerson then ([], list)
      else
        let (b, lines, rest) :=
          matchingLoop (nuhMatches cptr user) letter list ⟨[0x2d], [], 0⟩
        (if b.pbuf ≠ [] then lines ++ [b.line] else lines, rest)

/-! ## The status of the members -/

/-- The flags of `send_mode_burst` in its order, and their letters: `CHFL_OWNER`,
`CHFL_PROTECT`, `CHFL_CHANOP`, `CHFL_HALFOP` and `CHFL_VOICE`. -/
def statusModes : List (Nat × UInt8) :=
  [(0x8, 0x75), (0x4, 0x61), (0x1, 0x6f), (0x10, 0x68), (0x2, 0x76)]

/-- A member: the name of the client and the flags. Names are words. -/
structure StatusMember where
  name : List UInt8
  flags : Nat
  name_ne : name ≠ []
  name_word : ∀ c ∈ name, c ≠ 0x20
  name_length : name.length ≤ nickLen

/-- `modebuf2` before `c` and from `c` on, `parabuf2` and `count`. -/
structure StatusBuf where
  letters : List UInt8
  behind : List UInt8
  parabuf2 : List UInt8
  count : Nat
deriving DecidableEq, Repr

namespace StatusBuf

/-- `*c++ = letter` -/
def putLetter (letter : UInt8) (b : StatusBuf) : StatusBuf :=
  { b with letters := b.letters ++ [letter], behind := b.behind.tail }

/-- `*c = '\0'` -/
def terminate (b : StatusBuf) : StatusBuf := { b with behind := 0 :: b.behind.tail }

/-- The test before a name is added. -/
def room (name : List UInt8) (b : StatusBuf) : Bool :=
  b.parabuf2.length + name.length + 10 < modeBufLen

/-- A letter and a name, with a space in front if it is not the first. -/
def add (name : List UInt8) (letter : UInt8) (b : StatusBuf) : StatusBuf :=
  { b.putLetter letter with
    parabuf2 := (if b.parabuf2 ≠ [] then b.parabuf2 ++ [0x20] else b.parabuf2) ++ name
    count := b.count + 1 }

/-- A letter and a name, with a space behind. -/
def addAgain (name : List UInt8) (letter : UInt8) (b : StatusBuf) : StatusBuf :=
  { b.putLetter letter with
    parabuf2 := b.parabuf2 ++ name ++ [0x20]
    count := b.count + 1 }

/-- What is sent: `modebuf2` is a string up to its first NUL, and no letter is
one. -/
def line (change : UInt8) (b : StatusBuf) : ModeLine :=
  ⟨change :: (b.letters ++ Lib.cstr b.behind), b.parabuf2⟩

/-- The buffers after a line is sent. -/
def restart (b : StatusBuf) : StatusBuf :=
  { b with letters := [], behind := b.letters ++ b.behind, parabuf2 := [] }

end StatusBuf

/-- One member in the loop of `send_mode_burst`. -/
def burstMember (change : UInt8) (cm : StatusMember) (b : StatusBuf) :
    StatusBuf × List ModeLine :=
  let b := statusModes.foldl (fun b mode =>
    if b.room cm.name then if cm.flags &&& mode.1 ≠ 0 then b.add cm.name mode.2 else b else b) b
  let room := b.room cm.name
  let b := if room then b.terminate else b
  let send := (¬ room ∧ b.parabuf2 ≠ []) ∨ b.count = maxModeParams
  if send then
    let next :=
      if b.count ≠ maxModeParams then
        statusModes.foldl (fun b mode =>
          if cm.flags &&& mode.1 ≠ 0 then b.addAgain cm.name mode.2 else b) b.restart
      else { b.restart with count := 0 }
    (next.terminate, [b.line change])
  else (b, [])

/-- The loop of `send_mode_burst`. -/
def burstLoop (change : UInt8) : List StatusMember → StatusBuf → StatusBuf × List ModeLine
  | [], b => (b, [])
  | cm :: members, b =>
      let (b, sent) := burstMember change cm b
      let (b, lines) := burstLoop change members b
      (b, sent ++ lines)

/-- `send_mode_burst`, with what an earlier call left in `modebuf2`. -/
def sendModeBurst (modebuf2 : List UInt8) (change : UInt8) (members : List StatusMember) :
    List ModeLine :=
  let (b, lines) := burstLoop change members ⟨[], 0 :: modebuf2.tail, [], 0⟩
  if b.parabuf2 ≠ [] then lines ++ [b.line change] else lines

/-! ## The modes of a channel -/

/-- `MFLG_PARAMSTR` -/
def mflgParamStr : Nat := 0x2

/-- `MFLG_PARAMNUM` -/
def mflgParamNum : Nat := 0x4

/-- `MFLG_PARAMDBL` -/
def mflgParamDbl : Nat := 0x8

/-- `MFLG_PARAMCHN` -/
def mflgParamChn : Nat := 0x10

/-- `MFLG_IGNORE` -/
def mflgIgnore : Nat := 0x20

/-- `struct ChanMode`, without the handlers. -/
structure ChanMode where
  type : Nat
  inUse : Bool
  flags : Nat

/-- `struct SMode` -/
structure SMode where
  mode : Nat
  limit : UInt64
  key : List UInt8
  lines : UInt64
  intime : UInt64
  link : List UInt8
  joindelay : UInt64

/-- What `ircsprintf` makes of a format in the code. -/
def PrintfEnv.text (E : PrintfEnv) (format : String) (args : List PrintfArg) : List UInt8 :=
  (E.formatText (textBytes format) args).getD []

/-- The parameter of the mode `i`. -/
def SMode.param (E : PrintfEnv) (mode : SMode) (i flags : Nat) : List UInt8 :=
  if flags &&& mflgParamNum ≠ 0 then
    E.text " %d" [.word (if i = 0x6c then mode.limit else mode.joindelay)]
  else if flags &&& mflgParamStr ≠ 0 then E.text " %s" [.string (some mode.key)]
  else if flags &&& mflgParamDbl ≠ 0 then E.text " %d:%d" [.word mode.lines, .word mode.intime]
  else if flags &&& mflgParamChn ≠ 0 then E.text " %s" [.string (some mode.link)]
  else []

/-- `KEYLEN` -/
def keyLen : Nat := 23

/-- `REALMODEBUFLEN`, the size of `modebuf` and of `parabuf`. -/
def realModeBufLen : Nat := 512

/-- A call of `ircsprintf` in `channel_modes`: the size of the array, the format
and its arguments. -/
structure ParamCall where
  size : Nat
  format : String
  args : List PrintfArg

/-- The call for the mode `i`. -/
def SMode.paramCall (mode : SMode) (i flags : Nat) : Option ParamCall :=
  if flags &&& mflgParamNum ≠ 0 then
    some ⟨9, " %d", [.word (if i = 0x6c then mode.limit else mode.joindelay)]⟩
  else if flags &&& mflgParamStr ≠ 0 then some ⟨keyLen + 1, " %s", [.string (some mode.key)]⟩
  else if flags &&& mflgParamDbl ≠ 0 then
    some ⟨20, " %d:%d", [.word mode.lines, .word mode.intime]⟩
  else if flags &&& mflgParamChn ≠ 0 then
    some ⟨channelLen + 1, " %s", [.string (some mode.link)]⟩
  else none

/-- All that the call writes is in the array. -/
def ParamCall.inside (E : PrintfEnv) (call : ParamCall) : Bool :=
  ((E.ircsprintf (textBytes call.format) call.args).map fun r =>
    r.2.all fun p => p.1 < call.size).getD false

/-- The letters that `channel_modes` shows. -/
def shownModes (modetab : Nat → ChanMode) (mode : SMode) : List Nat :=
  (List.range 128).filter fun i =>
    (modetab i).inUse ∧ (modetab i).flags &&& mflgIgnore = 0 ∧
      mode.mode &&& (modetab i).type ≠ 0

/-- The texts for `mbuf` and `pbuf`. The parameters are for members and, with
`IsPrivileged`, for others. -/
def modeTexts (E : PrintfEnv) (modetab : Nat → ChanMode) (privileged : Bool) (mode : SMode) :
    List UInt8 × List UInt8 :=
  let modes := shownModes modetab mode
  (0x2b :: modes.map UInt8.ofNat,
    if privileged then modes.flatMap fun i => mode.param E i (modetab i).flags else [])

/-- `channel_modes` with `operation` 1: `mbuf` and `pbuf`, which are `modebuf` and
`parabuf`. -/
def channelModes (E : PrintfEnv) (modetab : Nat → ChanMode) (privileged : Bool) (mode : SMode) :
    Option (List UInt8 × List UInt8) :=
  let (mbuf, pbuf) := modeTexts E modetab privileged mode
  if privileged ∧ ¬∀ i ∈ shownModes modetab mode,
      ∀ call ∈ mode.paramCall i (modetab i).flags, call.inside E then none
  else if realModeBufLen ≤ mbuf.length ∨ realModeBufLen ≤ pbuf.length then none
  else some (mbuf, pbuf)

/-! ## The members of a channel -/

/-- `BUFSIZE` -/
def bufSize : Nat := 512

/-- `TOK1_SJOIN` -/
def tok1Sjoin : UInt8 := 0x53

/-- What `send_channel_modes` reads of a channel. -/
structure SjoinChannel where
  chname : List UInt8
  tsval : UInt64
  mode : SMode
  chname_length : chname.length ≤ channelLen

/-- A member, and whether the client is anonymous. -/
structure SjoinMember extends StatusMember where
  isAnon : Bool

/-- The flags of `send_channel_modes` in its order, and the characters in front
of the name: `CHFL_OWNER`, `CHFL_PROTECT`, `CHFL_HALFOP`, `CHFL_CHANOP` and
`CHFL_VOICE`. -/
def sjoinModes : List (Nat × UInt8) :=
  [(0x8, 0x2e), (0x4, 0x7e), (0x10, 0x25), (0x1, 0x40), (0x2, 0x2b)]

/-- A member in a line, up to the space. -/
def SjoinMember.nick (cm : SjoinMember) : List UInt8 :=
  (sjoinModes.filterMap fun mode => if cm.flags &&& mode.1 ≠ 0 then some mode.2 else none) ++
    cm.name

/-- The start of the first line. -/
def SjoinChannel.firstHeader (E : PrintfEnv) (ch : SjoinChannel) (modebuf parabuf : List UInt8) :
    List UInt8 :=
  E.text "%T %H %s%s :"
    [.timestamp ch.tsval, .channel ch.chname, .string (some modebuf), .string (some parabuf)]

/-- The start of the lines behind it. -/
def SjoinChannel.nextHeader (E : PrintfEnv) (ch : SjoinChannel) : List UInt8 :=
  E.text "%T %H 0 :" [.timestamp ch.tsval, .channel ch.chname]

/-- The loop of `send_channel_modes`, with what stands in `buf` up to `t`. The
space before `t` stays: it is looked for behind the NUL. -/
def sjoinLoop (header : List UInt8) : List SjoinMember → List UInt8 → Nat →
    Option (List (List UInt8))
  | [], buf, n => some (if n ≠ 0 then [buf] else [])
  | cm :: members, buf, n =>
      if cm.isAnon then sjoinLoop header members buf n
      else
        let buf := buf ++ cm.nick ++ [0x20]
        -- The NUL behind the space is the last that is written.
        if bufSize ≤ buf.length then none
        else if buf.length > bufSize - 80 then
          (sjoinLoop header members header 0).map fun lines => buf :: lines
        else sjoinLoop header members buf (n + 1)

/-- `send_channel_modes`: the texts of the lines. -/
def sendChannelModes (E : PrintfEnv) (modetab : Nat → ChanMode) (privileged : Bool)
    (ch : SjoinChannel) (members : List SjoinMember) : Option (List (List UInt8)) :=
  if ch.chname.head? ≠ some 0x23 then some []
  else
    (channelModes E modetab privileged ch.mode).bind fun (modebuf, parabuf) =>
      let buf := ch.firstHeader E modebuf parabuf
      if bufSize ≤ buf.length then none
      else sjoinLoop (ch.nextHeader E) members buf 0

end TrIrcd
