import TrIrcd.Src.Httpd
import TrIrcd.Src.Throttle

/-!
# `src/optparse.c`: the command line

`argv` is the list of its strings, from `argc` on where a function is given a
`rest`. Behind the last of them is a NULL: that it is read is kept in `past`.
The descriptions of the options and what is printed are left out.
-/

namespace TrIrcd

open TrIrcd.Lib

/-- Where the table keeps a string: `GeneralOpts.dpath` and
`GeneralOpts.configfile`. -/
inductive OptElement
  | dpath | configfile
deriving DecidableEq, Repr

inductive OptType
  | none | string (element : OptElement) | debug | usage | foreground | log | webconfig
  | webconfigBind | webconfigPort | root | maxclients | smallnet
deriving DecidableEq, Repr

structure OptItem where
  optname : List UInt8
  optchar : UInt8
  opttype : OptType
deriving DecidableEq, Repr

def dirpathName : List UInt8 := [0x64, 0x69, 0x72, 0x70, 0x61, 0x74, 0x68]
def configfileName : List UInt8 := [0x63, 0x6f, 0x6e, 0x66, 0x69, 0x67, 0x66, 0x69, 0x6c, 0x65]
def rootName : List UInt8 := [0x72, 0x6f, 0x6f, 0x74]
def foregroundName : List UInt8 := [0x66, 0x6f, 0x72, 0x65, 0x67, 0x72, 0x6f, 0x75, 0x6e, 0x64]
def loggingName : List UInt8 := [0x6c, 0x6f, 0x67, 0x67, 0x69, 0x6e, 0x67]
def debuglevelName : List UInt8 := [0x64, 0x65, 0x62, 0x75, 0x67, 0x6c, 0x65, 0x76, 0x65, 0x6c]
def maxclientsName : List UInt8 := [0x6d, 0x61, 0x78, 0x63, 0x6c, 0x69, 0x65, 0x6e, 0x74, 0x73]
def smallnetName : List UInt8 := [0x73, 0x6d, 0x61, 0x6c, 0x6c, 0x6e, 0x65, 0x74]
def webconfigName : List UInt8 := [0x77, 0x65, 0x62, 0x63, 0x6f, 0x6e, 0x66, 0x69, 0x67]
def versionName : List UInt8 := [0x76, 0x65, 0x72, 0x73, 0x69, 0x6f, 0x6e]
def helpName : List UInt8 := [0x68, 0x65, 0x6c, 0x70]

/-- `parseopts` -/
def parseopts : List OptItem :=
  [⟨dirpathName, 0x64, .string .dpath⟩,
    ⟨configfileName, 0x66, .string .configfile⟩,
    ⟨rootName, 0x72, .root⟩,
    ⟨foregroundName, 0x7a, .foreground⟩,
    ⟨loggingName, 0x6c, .log⟩,
    ⟨debuglevelName, 0x78, .debug⟩,
    ⟨maxclientsName, 0x6d, .maxclients⟩,
    ⟨smallnetName, 0x73, .smallnet⟩,
    ⟨webconfigName, 0x77, .webconfig⟩,
    ⟨webconfigName ++ [0x2d, 0x62, 0x69, 0x6e, 0x64], 0x62, .webconfigBind⟩,
    ⟨webconfigName ++ [0x2d, 0x70, 0x6f, 0x72, 0x74], 0x70, .webconfigPort⟩,
    ⟨versionName, 0x76, .none⟩,
    ⟨helpName, 0x68, .usage⟩]

/-- `GeneralOpts`, and the statics of the file. -/
structure OptSt where
  dpath : Option (List UInt8)
  configfile : Option (List UInt8)
  foreground : Bool
  smallnet : Bool
  enableLogging : Bool
  webconfig : Bool
  optRoot : Bool
  debuglevel : Int
  maxclients : Int
  wport : Int
  wbind : List UInt8
  webconfigport : Int
  webconfigbind : Option (List UInt8)
  /-- `argv[argcount]` has been read. -/
  past : Bool
deriving DecidableEq, Repr

inductive OptFault
  | overrun
deriving DecidableEq, Repr

inductive OptEnd
  | ret (s : OptSt)
  | exit (code : Int) (s : OptSt)
deriving DecidableEq, Repr

/-- The state in which the call ends. -/
def OptEnd.state : OptEnd → OptSt
  | .ret s => s
  | .exit _ s => s

/-- Whether there is more of the command line. -/
inductive OptNext
  | next (rest : List (List UInt8)) (s : OptSt)
  | done (result : OptEnd)

/-- Going on, if there is. -/
def OptNext.andThen (f : List (List UInt8) → OptSt → Except OptFault OptNext) :
    OptNext → Except OptFault OptNext
  | .next rest s => f rest s
  | .done result => .ok (.done result)

/-- `strcpy` to where there is room for `size` bytes. -/
def strcpyInto (size : Nat) (arg : List UInt8) : Except OptFault (List UInt8) :=
  if arg.length + 1 ≤ size then .ok arg else .error .overrun

/-- `*element = MyMalloc(strlen(arg))`, and the `strcpy` to it. -/
def setElement (element : OptElement) (arg : List UInt8) (s : OptSt) : Except OptFault OptSt :=
  (strcpyInto arg.length arg).map fun text =>
    match element with
    | .dpath => { s with dpath := some text }
    | .configfile => { s with configfile := some text }

/-- What a `case` that takes a value does with it. -/
def setValue (opttype : OptType) (arg : List UInt8) (s : OptSt) : Except OptFault OptSt :=
  match opttype with
  | .debug => .ok { s with debuglevel := atoi arg }
  | .maxclients => .ok { s with maxclients := atoi arg }
  | .string element => setElement element arg s
  | .webconfigPort => .ok { s with wport := atoi arg }
  | .webconfigBind => (strcpyInto hostIpLen arg).map fun text => { s with wbind := text }
  | _ => .ok s

/-- The cases that look at the next argument. -/
def OptType.takesValue : OptType → Bool
  | .debug | .maxclients | .string _ | .webconfigPort | .webconfigBind => true
  | _ => false

/-- The `switch`, which is the same for both forms, at the argument that `rest`
starts with. -/
def optSwitch (opttype : OptType) (rest : List (List UInt8)) (s : OptSt) :
    Except OptFault OptNext :=
  if opttype.takesValue then
    match rest.tail with
    | [] => .ok (.done (.exit (-1) { s with past := true }))
    | arg :: rest => (setValue opttype arg s).map (.next (arg :: rest))
  else
    match opttype with
    | .foreground => .ok (.next rest { s with foreground := true })
    | .smallnet => .ok (.next rest { s with smallnet := true })
    | .root => .ok (.next rest { s with optRoot := true })
    | .webconfig => .ok (.next rest { s with webconfig := true })
    | .log => .ok (.next rest { s with enableLogging := true })
    | _ => .ok (.done (.exit (-1) s))

/-- The argument is an option, and names the item. -/
def OptItem.named (item : OptItem) (text : List UInt8) : Bool :=
  text.headD 0 = 0x2d &&
    if text.tail.headD 0 = 0x2d then ircStrcmp (text.drop 2) item.optname = 0
    else text.tail.headD 0 = item.optchar

/-- The `for` loop over the table. -/
def optScan : List OptItem → List (List UInt8) → OptSt → Except OptFault OptNext
  | [], rest, s => .ok (.next rest s)
  | _ :: _, [], s => .ok (.done (.ret s))
  | item :: items, text :: rest, s =>
      if item.named text then
        (optSwitch item.opttype (text :: rest) s).bind (OptNext.andThen (optScan items))
      else optScan items (text :: rest) s

/-- The `while` loop. -/
def commandLoop : Nat → List (List UInt8) → OptSt → Except OptFault OptNext
  | 0, rest, s => .ok (.next rest s)
  | _ + 1, [], s => .ok (.next [] s)
  | fuel + 1, text :: rest, s =>
      (optScan parseopts (text :: rest) s).bind
        (OptNext.andThen fun rest s => commandLoop fuel rest.tail s)

/-- The tests at the end. -/
def checkOptions (euid : Nat) (s : OptSt) : OptEnd :=
  if s.webconfig && s.wport = 0 then .exit 45 s
  else if s.webconfig && s.wbind.headD 0 = 0 then .exit 46 s
  else
    let s := if s.webconfig then { s with webconfigport := s.wport, webconfigbind := some s.wbind }
      else s
    if !s.optRoot && euid = 0 then .exit (-1) s else .ret s

/-- `process_commandline` -/
def processCommandline (euid : Nat) (argv : List (List UInt8)) (s : OptSt) :
    Except OptFault OptEnd :=
  (commandLoop argv.length argv.tail s).map fun
    | .next _ s => checkOptions euid s
    | .done result => result

end TrIrcd
