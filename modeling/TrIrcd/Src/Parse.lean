import TrIrcd.Proofs.NameTable
import TrIrcd.Src.Channel
import TrIrcd.Src.Commands
import TrIrcd.Src.Identity
import TrIrcd.Src.Whowas
import TrIrcd.Src.Textedit

/-!
# `src/parse.c`: lines to calls

`serverParse` and `userParse` look for the client a line is from, for the
command, and for its parameters, and answer which function is called and with
what (`Parsed`). What the function does then, and the counters, logs and
penalties of a line, are not here. A line is a C string: bytes without a NUL.

`para` has room for `MAXPARA + 1` pointers, and a line with `MAXPARA`
parameters writes its NULL behind the array. Such a line is an `overflow`.
-/

namespace TrIrcd

open TrIrcd.Lib

/-- `MAXPARA` -/
def maxPara : Nat := 15

/-- `STAT_ME` -/
def statMe : Int := -2

/-- `STAT_SERVICE` -/
def statService : Int := 2

/-- What the parser reads of a client; `source` is the pointer `from`. -/
structure ParseClient where
  source : Nat
  status : Int
  user : Bool
  anOper : Bool
  dead : Bool
  closing : Bool
  doesTS : Bool
  uLine : Bool

namespace ParseClient

def isRegistered (c : ParseClient) : Bool := statServer ≤ c.status
def isServer (c : ParseClient) : Bool := c.status = statServer
def isMe (c : ParseClient) : Bool := c.status = statMe
def isService (c : ParseClient) : Bool := c.status = statService
def isPerson (c : ParseClient) : Bool := c.user && c.status = statClient

end ParseClient

/-- The clients and the tables they are looked up in, the commands, with the
parameters each takes, and `tok1_msgtab`. -/
structure ParseSt where
  key : UInt32
  names : NameSt
  inv : names.Inv key
  client : Nat → ParseClient
  ids : IdSt
  commands : CommandSt
  parameters : Nat → Nat
  tok1Cmd : UInt8 → Option (List UInt8)
  tok1Msg : UInt8 → Option Nat

/-- What `cancel_clients` and `remove_unknown` do about a prefix. -/
inductive PrefixAct
  | ignore
  | kill (asender : List UInt8)
  | squit (asender : List UInt8)
  | exitSource (sptr : Nat)
  | exitLink (cptr : Nat)
deriving DecidableEq

/-- The handlers of a `Message`. -/
inductive Handler
  | unrg | srvr | oper | user | srvc
deriving DecidableEq

inductive Parsed
  | dead
  | unknownPrefix (act : PrefixAct)
  | wrongDirection (act : PrefixAct)
  | empty
  | unknownToken
  | unknownCommand (ch : List UInt8)
  | numeric (numeric source : Nat) (para : List (List UInt8))
  | handler (h : Handler) (msg source : Nat) (para : List (List UInt8))
  | noHandler (msg : Nat)
deriving DecidableEq

inductive ParseFault
  | overflow
  | intOverflow
deriving DecidableEq

/-! ## Scanning -/

def notSpace (c : UInt8) : Bool := c ≠ 0x20

def skipSpaces (s : List UInt8) : List UInt8 := s.dropWhile fun c => !notSpace c

def firstWord (s : List UInt8) : List UInt8 := s.takeWhile notSpace

def pastWord (s : List UInt8) : List UInt8 := s.dropWhile notSpace

/-- The parameters of a line: at most `more + 1`, and the last one that there
is room for is the rest of the line. -/
def splitPara : Nat → List UInt8 → List (List UInt8)
  | more, s =>
      match skipSpaces s with
      | [] => []
      | c :: s =>
          if c = 0x3a then [s]
          else
            match more with
            | 0 => [c :: s]
            | more + 1 => firstWord (c :: s) :: splitPara more (pastWord (c :: s))

/-- The same loop by the indices of `para` that it writes: the last one, and
all of them. A round takes at least one byte of the `fuel` bytes of `s`. -/
def paraLoop (paramcount : Int) : Nat → List UInt8 → Nat → Nat × List Nat
  | 0, _, i => (i, [])
  | fuel + 1, s, i =>
      match skipSpaces s with
      | [] => (i, [])
      | c :: s =>
          if c = 0x3a then (i + 1, [i + 1])
          else if paramcount ≤ (i + 1 : Nat) then (i + 1, [i + 1])
          else
            let (last, written) := paraLoop paramcount fuel (pastWord (c :: s)) (i + 1)
            (last, (i + 1) :: written)

/-- The indices of `para` that are written for a line: the sender, the
parameters in what follows the command, and the NULL. An id in `para[1]` is
replaced only where there is one. -/
def paraWritten (paramcount : Int) (rest : Option (List UInt8)) : List Nat :=
  let (i, written) :=
    match rest with
    | none => (0, [])
    | some s => paraLoop (min paramcount maxPara) s.length s 0
  0 :: written ++ [i + 1]

/-- The command at the start of a line, and what follows it and one space. -/
def cutCommand (ch : List UInt8) : List UInt8 × Option (List UInt8) :=
  (firstWord ch, match pastWord ch with
    | [] => none
    | _ :: s => some s)

def isDigit10 (c : UInt8) : Bool := 0x30 ≤ c && c ≤ 0x39

namespace ParseSt

/-- `find_client` -/
def find (s : ParseSt) (name : List UInt8) : Option Nat :=
  findClient s.key s.names.name name s.names.clientTable

/-- `cancel_clients` -/
def cancelClients (s : ParseSt) (cptr sptr : Nat) : PrefixAct :=
  if (s.client sptr).isServer || (s.client sptr).isMe then .ignore
  else if (s.client cptr).isServer then
    if (s.client cptr).doesTS then .ignore
    else if (s.client sptr).uLine then .ignore
    else .exitSource sptr
  else .exitLink cptr

/-- `remove_unknown` -/
def removeUnknown (s : ParseSt) (cptr : Nat) (asender : List UInt8) : PrefixAct :=
  if !(s.client cptr).isRegistered then .ignore
  else if (s.client cptr).isPerson then .ignore
  else if !(s.client cptr).isServer then .ignore
  else if 0x2e ∈ asender then .squit asender
  else .kill asender

/-- A prefix: who the line is from, what `para[0]` is, and the rest; or why
the line is not looked at. -/
def resolve (s : ParseSt) (cptr : Nat) (sender para0 : List UInt8) (source : Option Nat)
    (ch : List UInt8) : Except Parsed (Nat × List UInt8 × List UInt8) :=
  match source with
  | none => .error (.unknownPrefix (s.removeUnknown cptr sender))
  | some source =>
      if (s.client source).source ≠ cptr then
        .error (.wrongDirection (s.cancelClients cptr source))
      else .ok (source, para0, ch)

/-- The prefix `:name`. -/
def namePrefix (s : ParseSt) (cptr : Nat) (ch : List UInt8) :
    Except Parsed (Nat × List UInt8 × List UInt8) :=
  let sender := (firstWord ch).take hostLen
  let rest := skipSpaces (pastWord ch)
  if sender = [] then .ok (cptr, s.names.name cptr, rest)
  else s.resolve cptr sender sender (s.find sender) rest

/-- The prefix `!id`, from the exclamation mark on. -/
def idPrefix (s : ParseSt) (cptr : Nat) (ch : List UInt8) :
    Except Parsed (Nat × List UInt8 × List UInt8) :=
  let sender := (firstWord ch).take hostLen
  let source := s.ids.findByBase64Id sender.tail
  s.resolve cptr sender ((source.map s.names.name).getD []) source (skipSpaces (pastWord ch))

/-- What `para[1]` and the parameters behind it become: the first one is taken
for an id if it starts like one. -/
def readId (s : ParseSt) : List (List UInt8) → List (List UInt8)
  | (0x21 :: id) :: params =>
      ((s.ids.findByBase64Id id).map s.names.name).getD (0x21 :: id) :: params
  | params => params

/-- `para`, with the first parameter replaced if it is an id somebody has. -/
def paraOf (s : ParseSt) (para0 : List UInt8) (params : List (List UInt8)) :
    Except ParseFault (List (List UInt8)) :=
  if maxPara ≤ params.length then .error .overflow
  else
    match params with
    | (0x21 :: id) :: params =>
        .ok (para0 :: ((s.ids.findByBase64Id id).map s.names.name).getD (0x21 :: id) :: params)
    | params => .ok (para0 :: params)

/-- The function of a message that a line from `cptr` calls. -/
def dispatch (s : ParseSt) (cptr msg source : Nat) (para : List (List UInt8)) : Parsed :=
  let c := s.client cptr
  if !c.isRegistered then .handler .unrg msg source para
  else if c.isServer then .handler .srvr msg source para
  else if c.anOper && c.isPerson then .handler .oper msg source para
  else if c.isPerson then .handler .user msg source para
  else if c.isService then .handler .srvc msg source para
  else .noHandler msg

/-- A message with its parameters. -/
def runMessage (s : ParseSt) (cptr msg source : Nat) (para0 : List UInt8)
    (rest : Option (List UInt8)) : Except ParseFault Parsed :=
  let paramcount := min (s.parameters msg) maxPara
  (s.paraOf para0 ((rest.map (splitPara (paramcount - 1))).getD [])).map fun para =>
    s.dispatch cptr msg source para

/-- A command word. -/
def runCommand (s : ParseSt) (cptr source : Nat) (para0 ch : List UInt8) :
    Except ParseFault Parsed :=
  match s.commands.hashParse (cutCommand ch).1 with
  | .error _ => .error .intOverflow
  | .ok none => .ok (.unknownCommand (cutCommand ch).1)
  | .ok (some msg) => s.runMessage cptr msg source para0 (cutCommand ch).2

/-- A token, if the command is one byte long. -/
def runToken (s : ParseSt) (cptr source : Nat) (para0 : List UInt8) (ch : UInt8)
    (rest : Option (List UInt8)) : Except ParseFault Parsed :=
  match s.tok1Cmd ch, s.tok1Msg ch with
  | some _, some msg => s.runMessage cptr msg source para0 rest
  | _, _ => .ok .unknownToken

/-- A numeric. -/
def runNumeric (s : ParseSt) (source : Nat) (para0 : List UInt8) (a b c : UInt8)
    (rest : List UInt8) : Except ParseFault Parsed :=
  let numeric := (a.toNat - 0x30) * 100 + (b.toNat - 0x30) * 10 + (c.toNat - 0x30)
  (s.paraOf para0 (splitPara (maxPara - 1) rest)).map fun para => .numeric numeric source para

/-- The command of a line of a server. -/
def serverCommand (s : ParseSt) (cptr source : Nat) (para0 : List UInt8) :
    List UInt8 → Except ParseFault Parsed
  | [] => .ok .empty
  | [ch] => s.runToken cptr source para0 ch none
  | ch :: 0x20 :: rest => s.runToken cptr source para0 ch (some rest)
  | [a, b] => s.runCommand cptr source para0 [a, b]
  | [a, b, c] => s.runCommand cptr source para0 [a, b, c]
  | a :: b :: c :: d :: rest =>
      if d = 0x20 && isDigit10 a && isDigit10 b && isDigit10 c then
        s.runNumeric source para0 a b c rest
      else s.runCommand cptr source para0 (a :: b :: c :: d :: rest)

/-- `server_parse` -/
def serverParse (s : ParseSt) (cptr : Nat) (buffer : List UInt8) : Except ParseFault Parsed :=
  if (s.client cptr).dead || (s.client cptr).closing then .ok .dead
  else
    let source := match skipSpaces buffer with
      | 0x3a :: ch => s.namePrefix cptr ch
      | 0x21 :: ch => s.idPrefix cptr (0x21 :: ch)
      | ch => .ok (cptr, s.names.name cptr, ch)
    match source with
    | .error r => .ok r
    | .ok (source, para0, ch) => s.serverCommand cptr source para0 ch

/-- `user_parse` -/
def userParse (s : ParseSt) (cptr : Nat) (buffer : List UInt8) : Except ParseFault Parsed :=
  if (s.client cptr).dead || (s.client cptr).closing then .ok .dead
  else
    let source := match skipSpaces buffer with
      | 0x3a :: ch => s.namePrefix cptr ch
      | ch => .ok (cptr, s.names.name cptr, ch)
    match source with
    | .error r => .ok r
    | .ok (_, _, []) => .ok .empty
    | .ok (source, para0, ch) => s.runCommand cptr source para0 ch

/-! ## What is split -/

/-- `paramcount`: an `int` that is set from an `unsigned int`. -/
def paramcount (s : ParseSt) (msg : Nat) : Int := Int.bmod (s.parameters msg) UInt32.size

/-- The `paramcount` of a command word and what follows it, if the command is
known. -/
def wordPara (s : ParseSt) (ch : List UInt8) : Option (Int × Option (List UInt8)) :=
  match s.commands.hashParse (cutCommand ch).1 with
  | .ok (some msg) => some (s.paramcount msg, (cutCommand ch).2)
  | _ => none

/-- The same of a token. -/
def tokenPara (s : ParseSt) (ch : UInt8) (rest : Option (List UInt8)) :
    Option (Int × Option (List UInt8)) :=
  match s.tok1Cmd ch, s.tok1Msg ch with
  | some _, some msg => some (s.paramcount msg, rest)
  | _, _ => none

/-- The same of what a server sends behind the prefix. -/
def serverPara (s : ParseSt) : List UInt8 → Option (Int × Option (List UInt8))
  | [] => none
  | [ch] => s.tokenPara ch none
  | ch :: 0x20 :: rest => s.tokenPara ch (some rest)
  | [a, b] => s.wordPara [a, b]
  | [a, b, c] => s.wordPara [a, b, c]
  | a :: b :: c :: d :: rest =>
      if d = 0x20 && isDigit10 a && isDigit10 b && isDigit10 c then some (maxPara, some rest)
      else s.wordPara (a :: b :: c :: d :: rest)

/-- The prefix of a line of a server: the sender, `para[0]` and the rest; or
why the line is not looked at. -/
def serverPrefix (s : ParseSt) (cptr : Nat) (buffer : List UInt8) :
    Except Parsed (Nat × List UInt8 × List UInt8) :=
  match skipSpaces buffer with
  | 0x3a :: ch => s.namePrefix cptr ch
  | 0x21 :: ch => s.idPrefix cptr (0x21 :: ch)
  | ch => .ok (cptr, s.names.name cptr, ch)

/-- The prefix of a line of a user. -/
def userPrefix (s : ParseSt) (cptr : Nat) (buffer : List UInt8) :
    Except Parsed (Nat × List UInt8 × List UInt8) :=
  match skipSpaces buffer with
  | 0x3a :: ch => s.namePrefix cptr ch
  | ch => .ok (cptr, s.names.name cptr, ch)

/-- The `paramcount` with which `server_parse` or `user_parse` gets to its loop,
and what the loop splits, if it gets there. -/
def linePara (s : ParseSt) (server : Bool) (cptr : Nat) (buffer : List UInt8) :
    Option (Int × Option (List UInt8)) :=
  if (s.client cptr).dead || (s.client cptr).closing then none
  else
    match if server then s.serverPrefix cptr buffer else s.userPrefix cptr buffer with
    | .error _ => none
    | .ok (_, _, ch) =>
        if server then s.serverPara ch else if ch = [] then none else s.wordPara ch

/-- The indices of `para` behind the first that the line has written. -/
def lineWritten (s : ParseSt) (server : Bool) (cptr : Nat) (buffer : List UInt8) : List Nat :=
  match s.linePara server cptr buffer with
  | none => [0]
  | some (paramcount, rest) => paraWritten paramcount rest

/-! ## The ids of a line -/

/-- `sender + 1` of a line that starts with the id of its sender. -/
def prefixId (server : Bool) (buffer : List UInt8) : Option (List UInt8) :=
  match skipSpaces buffer with
  | 0x21 :: ch => if server then some ((firstWord (0x21 :: ch)).take hostLen).tail else none
  | _ => none

/-- `para[1]` as it is split off, if the line gets there. -/
def firstPara (s : ParseSt) (server : Bool) (cptr : Nat) (buffer : List UInt8) :
    Option (List UInt8) :=
  (s.linePara server cptr buffer).bind fun (paramcount, rest) =>
    rest.bind fun rest => (splitPara (min paramcount maxPara - 1).toNat rest).head?

/-- The strings that `find_by_base64_id` is called with for a line. -/
def lineIds (s : ParseSt) (server : Bool) (cptr : Nat) (buffer : List UInt8) :
    List (List UInt8) :=
  (if (s.client cptr).dead || (s.client cptr).closing then []
    else (prefixId server buffer).toList) ++
    match s.firstPara server cptr buffer with
    | some (0x21 :: id) => [id]
    | _ => []

end ParseSt

/-!
## `src/parse.c`: a line in its buffer

What is above takes a line for a string and what is split off it for strings. The
two parsers do it in place: the blanks in front of a parameter become NULs, and
`para` points into the buffer. Here the buffer is there as it is, from behind the
prefix on, and each of the two functions goes through it in its own order.

The NULL behind the parameters is written as it is above: behind `MAXPARA` of them
it is past `para`, and the line is an `overflow`.
-/

inductive LineFault
  | text (f : TextFault)
  /-- In `hash`. -/
  | intOverflow
  /-- Behind `para`. -/
  | overflow
deriving DecidableEq, Repr

/-- `while (*s == ' ') *s++ = '\0'`: the buffer, and `s`. -/
def eraseSpaces (mem : List UInt8) (s : Nat) : List UInt8 × Nat :=
  let n := ((mem.drop s).takeWhile fun c => !notSpace c).length
  (blit mem s (List.replicate n 0), s + n)

/-- `while (*s && *s != ' ') s++` -/
def wordEnd (mem : List UInt8) (s : Nat) : Nat :=
  s + ((mem.drop s).takeWhile fun c => c ≠ 0 ∧ notSpace c).length

/-- The `for (;;)` that fills `para`, which has been filled up to `i`: the places
it writes, and the buffer. -/
def paraFill (paramcount : Int) :
    Nat → Nat → Nat → List UInt8 → Except TextFault (List Nat × List UInt8)
  | 0, _, _, _ => .error .endless
  | fuel + 1, s, i, mem =>
      let (mem, s) := eraseSpaces mem s
      match mem[s]? with
      | none => .error .outside
      | some c =>
          if c = 0 then .ok ([], mem)
          else if c = 0x3a then .ok ([s + 1], mem)
          else if paramcount ≤ (i + 1 : Nat) then .ok ([s], mem)
          else do
            let (para, mem) ← paraFill paramcount fuel (wordEnd mem s) (i + 1) mem
            .ok (s :: para, mem)

/-- `if (s) …`: the strings that `para` points to from `para[1]` on. -/
def fillPara (paramcount : Int) (s : Option Nat) (mem : List UInt8) :
    Except TextFault (List (List UInt8)) :=
  match s with
  | none => .ok []
  | some s => do
      let (para, mem) ← paraFill (min paramcount maxPara) (mem.length + 1) s 0 mem
      .ok (para.map fun p => cstr (mem.drop p))

/-- `para[++i] = NULL` -/
def endPara (params : List (List UInt8)) : Except LineFault (List (List UInt8)) :=
  if maxPara ≤ params.length then .error .overflow else .ok params

/-- `s = strchr(ch, ' '); if (s) *s++ = '\0'` -/
def cutWord (mem : List UInt8) (ch : Nat) : Except TextFault (Option Nat × List UInt8) := do
  match ← strchrIn 0x20 mem ch with
  | none => .ok (none, mem)
  | some s => do
      let mem ← putByte mem s 0
      .ok (some (s + 1), mem)

def textFault {α : Type} (r : Except TextFault α) : Except LineFault α := r.mapError .text

namespace ParseSt

/-- The end of both functions, for a message. -/
def callMessage (s : ParseSt) (cptr source msg : Nat) (para0 : List UInt8) (rest : Option Nat)
    (mem : List UInt8) : Except LineFault Parsed := do
  let params ← textFault (fillPara (s.paramcount msg) rest mem)
  let params ← endPara params
  .ok (s.dispatch cptr msg source (para0 :: s.readId params))

/-- `hash_parse`, and what both functions do with a word it does not know. -/
def parseWord (s : ParseSt) (cptr source : Nat) (para0 : List UInt8) (ch : Nat)
    (mem : List UInt8) : Except LineFault Parsed := do
  let (rest, mem) ← textFault (cutWord mem ch)
  match s.commands.hashParse (cstr (mem.drop ch)) with
  | .error _ => .error .intOverflow
  | .ok none => .ok (.unknownCommand (cstr (mem.drop ch)))
  | .ok (some msg) => s.callMessage cptr source msg para0 rest mem

/-- A token of `server_parse`: `c` is `*ch`, and `d` is what stands behind it. -/
def parseToken (s : ParseSt) (cptr source : Nat) (para0 : List UInt8) (ch : Nat) (c d : UInt8)
    (mem : List UInt8) : Except LineFault Parsed :=
  match s.tok1Cmd c, s.tok1Msg c with
  | some _, some msg =>
      if d = 0 then s.callMessage cptr source msg para0 none mem
      else s.callMessage cptr source msg para0 (some (ch + 2)) (mem.set (ch + 1) 0)
  | _, _ => .ok .unknownToken

/-- A numeric of `server_parse`. -/
def parseNumeric (s : ParseSt) (source : Nat) (para0 : List UInt8) (ch : Nat) (a b c : UInt8)
    (mem : List UInt8) : Except LineFault Parsed := do
  let numeric := (a.toNat - 0x30) * 100 + (b.toNat - 0x30) * 10 + (c.toNat - 0x30)
  let params ← textFault (fillPara maxPara (some (ch + 4)) (mem.set (ch + 3) 0))
  let params ← endPara params
  .ok (.numeric numeric source (para0 :: s.readId params))

/-- `server_parse` behind the prefix. `ch[3]` is looked at first, and of a word of
two letters it stands behind the line: what is there does not matter, since the
NUL at `ch[2]` is no digit. -/
def serverLine (s : ParseSt) (cptr source : Nat) (para0 : List UInt8) (ch : Nat)
    (mem : List UInt8) : Except LineFault Parsed :=
  match mem.drop ch with
  | a :: b :: line =>
      if a = 0 then .ok .empty
      else if b = 0x20 ∨ b = 0 then s.parseToken cptr source para0 ch a b mem
      else
        match line with
        | c :: 0x20 :: _ =>
            if isDigit10 a ∧ isDigit10 b ∧ isDigit10 c then
              s.parseNumeric source para0 ch a b c mem
            else s.parseWord cptr source para0 ch mem
        | _ => s.parseWord cptr source para0 ch mem
  | [a] => if a = 0 then .ok .empty else .error (.text .outside)
  | [] => .error (.text .outside)

/-- `user_parse` behind the prefix. -/
def userLine (s : ParseSt) (cptr source : Nat) (para0 : List UInt8) (ch : Nat)
    (mem : List UInt8) : Except LineFault Parsed :=
  match mem[ch]? with
  | none => .error (.text .outside)
  | some c => if c = 0 then .ok .empty else s.parseWord cptr source para0 ch mem

/-- `server_parse`, of the line at the start of `mem`. -/
def serverParseIn (s : ParseSt) (cptr : Nat) (mem : List UInt8) : Except LineFault Parsed :=
  if (s.client cptr).dead || (s.client cptr).closing then .ok .dead
  else
    match s.serverPrefix cptr (cstr mem) with
    | .error r => .ok r
    | .ok (source, para0, line) =>
        s.serverLine cptr source para0 ((cstr mem).length - line.length) mem

/-- `user_parse`, of the line at the start of `mem`. -/
def userParseIn (s : ParseSt) (cptr : Nat) (mem : List UInt8) : Except LineFault Parsed :=
  if (s.client cptr).dead || (s.client cptr).closing then .ok .dead
  else
    match s.userPrefix cptr (cstr mem) with
    | .error r => .ok r
    | .ok (source, para0, line) =>
        s.userLine cptr source para0 ((cstr mem).length - line.length) mem

end ParseSt

end TrIrcd
