import TrIrcd.Lib.Bytes
import TrIrcd.Src.Channel
import TrIrcd.Src.Whowas
import TrIrcd.Src.Textedit

/-!
# `src/ircsprintf.c`: formats

`Iprintf` goes through a format and writes what it stands for from `str[0]` on.
A string is copied as long as the bound is not reached (`Segment.copy`), and a
character that is no part of a string is written in any case (`Segment.put`),
so what is written depends on how the format and its arguments come apart into
the two. A bound of 0 is none.

A format that is not the code's own goes to `vsnprintf`; it has no pieces here,
and neither has one whose arguments do not fit it. Arguments of `%d` and the
like are read as 64-bit words. `Iprintf_hex` and `Iprintf_octal` look up a
digit of a negative number in front of their tables; what stands there is the
environment's. The digits are collected in `num`, which is too short for the
longest of them.
-/

namespace TrIrcd

open TrIrcd.Lib

/-- `PFF_UNSIGNED`, `PFF_CLI_FULL_P`, `PFF_CLI_NAME`, `PFF_CLI_ID`,
`PFF_CLI_FAKE` and `PFF_NOZERO`. -/
inductive PrintfFlag
  | none | unsigned | fullP | name | id | fake | nozero
deriving DecidableEq, Repr

/-- `PF_STRING` and the others. -/
inductive PrintfType
  | string | char | decimal | numeric | channel | confitem | client | octal | hex | timestamp
  | maskitem | charpp
deriving DecidableEq, Repr

inductive PrintfPiece
  | literal (c : UInt8)
  | spec (printfType : PrintfType) (printfFlag : PrintfFlag)
deriving DecidableEq, Repr

/-- What `Iprintf_client` reads of a client, with `IsServer` and `IsMe` as one. -/
structure PrintfClient where
  server : Bool
  myClient : Bool
  hasId : Bool
  fake : Bool
  willHideName : Bool
  name : List UInt8
  idString : List UInt8
  /-- The username, the fake host and the host of a user. -/
  user : Option (List UInt8 × List UInt8 × List UInt8)

/-- An argument, as far as a format reads it. -/
inductive PrintfArg
  | string (s : Option (List UInt8))
  | word (w : UInt64)
  | client (acptr : PrintfClient)
  | channel (chname : List UInt8)
  | timestamp (tsval : UInt64)
  | confitem (name : Option (List UInt8))
  | maskitem (username string : Option (List UInt8))
  | charpp (s : Nat → List UInt8) (count : Int)

/-- `ServerHide.enable`, and the bytes in front of `xtoa_tab` and `otoa_tab`. -/
structure PrintfEnv where
  serverHide : Bool
  beforeXtoa : Nat → UInt8
  beforeOtoa : Nat → UInt8

inductive Segment
  /-- A character that is written. -/
  | put (c : UInt8)
  /-- A string that is copied up to the bound. -/
  | copy (s : List UInt8)

/-! ## The pieces of a format -/

/-- The pieces of a format, within a specifier if there is a flag. -/
def printfPieces (serverHide : Bool) :
    Option PrintfFlag → List UInt8 → Option (List PrintfPiece)
  | .none, [] => some []
  | .some _, [] => .none
  | .none, c :: format =>
      if c = 0x25 then printfPieces serverHide (some .none) format
      else (printfPieces serverHide .none format).map (.literal c :: ·)
  | .some flag, c :: format =>
      let spec (printfType : PrintfType) (flag : PrintfFlag) :=
        (printfPieces serverHide .none format).map (.spec printfType flag :: ·)
      match c with
      | 0x73 => spec .string flag
      | 0x75 => spec .decimal .unsigned
      | 0x6c | 0x64 | 0x69 =>
          -- A `u` or `d` behind an `l`, `d` or `i` belongs to it.
          match format with
          | 0x75 :: format =>
              (printfPieces serverHide .none format).map (.spec .decimal .unsigned :: ·)
          | 0x64 :: format =>
              (printfPieces serverHide .none format).map (.spec .decimal .none :: ·)
          | _ => spec .decimal .none
      | 0x4e => spec .numeric flag
      | 0x6e => spec .hex .nozero
      | 0x78 | 0x58 => spec .hex flag
      | 0x6f => spec .octal flag
      | 0x63 => spec .char flag
      | 0x5e => printfPieces serverHide (some .fullP) format
      | 0x7e => printfPieces serverHide (some .name) format
      | 0x21 => printfPieces serverHide (some .id) format
      | 0x2a => printfPieces serverHide (some (if serverHide then .fake else .name)) format
      | 0x43 => spec .client flag
      | 0x48 => spec .channel flag
      | 0x4b => spec .confitem flag
      | 0x4d => spec .maskitem flag
      | 0x54 => spec .timestamp flag
      | 0x53 => spec .charpp flag
      | _ => .none

/-! ## What a specifier writes -/

/-- The digits that a `do` loop finds, the highest one first. -/
def loopDigits (base : Nat) : Nat → Nat → List Nat
  | 0, _ => []
  | fuel + 1, n =>
      if n / base = 0 then [n % base] else loopDigits base fuel (n / base) ++ [n % base]

/-- A digit in `itoa_tab`, `otoa_tab` or `xtoa_tab`. -/
def digitChar (d : Nat) : UInt8 := UInt8.ofNat (if d < 10 then 0x30 + d else 0x57 + d)

/-- `Iprintf_decimal` -/
def printfDecimal (ul : UInt64) (flag : PrintfFlag) : List Segment :=
  let digits (ul : UInt64) : Segment := .copy ((loopDigits 10 64 ul.toNat).map digitChar)
  if flag ≠ .unsigned ∧ ul &&& 0x80000000 ≠ 0 then
    [.put 0x2d, digits (0x80000000 - (ul &&& 0x7fffffff))]
  else [digits ul]

/-- `Iprintf_numeric` -/
def printfNumeric (n : UInt64) : List Segment :=
  [.copy ([n.toNat / 100 % 10, n.toNat / 10 % 10, n.toNat % 10].map digitChar)]

/-- The digits of a `long`, by the bytes in front of the table. -/
def longDigits (before : Nat → UInt8) (base : Nat) (w : UInt64) : List UInt8 :=
  let l : Int := Int.bmod w.toNat UInt64.size
  (loopDigits base 64 l.natAbs).map fun d => if l < 0 ∧ d ≠ 0 then before d else digitChar d

/-- `Iprintf_hex` -/
def PrintfEnv.hex (E : PrintfEnv) (w : UInt64) (flag : PrintfFlag) : List Segment :=
  (if flag ≠ .nozero then [.put 0x30, .put 0x78] else []) ++
    [.copy (longDigits E.beforeXtoa 16 w)]

/-- `Iprintf_octal` -/
def PrintfEnv.octal (E : PrintfEnv) (w : UInt64) : List Segment :=
  [.put 0x30, .put 0x78, .copy (longDigits E.beforeOtoa 8 w)]

/-- The bytes of a text in the code. -/
def textBytes (s : String) : List UInt8 := s.toList.map fun c => UInt8.ofNat c.toNat

/-- `stealth_server`: what `"*%s"` makes of the name from its first dot on, in
`HOSTLEN` bytes. -/
def stealthServer (name : List UInt8) : List UInt8 :=
  let tmp := if 0x2e ∈ name then name.dropWhile (· ≠ 0x2e) else textBytes "<NULL>"
  0x2a :: tmp.take (hostLen - 1)

/-- The id of a client, or its name if it has none to show. -/
def PrintfClient.idSegments (acptr : PrintfClient) : List Segment :=
  if acptr.myClient then [.copy acptr.name]
  else if ¬ acptr.hasId then [.copy acptr.name]
  else [.put 0x21, .copy acptr.idString]

/-- `Iprintf_client` -/
def PrintfEnv.client (E : PrintfEnv) (acptr : PrintfClient) (flag : PrintfFlag) : List Segment :=
  if acptr.server then
    match flag with
    | .none | .fullP | .name => [.copy acptr.name]
    | .id => acptr.idSegments
    | .fake =>
        if E.serverHide ∧ acptr.willHideName then [.copy (stealthServer acptr.name)]
        else [.copy acptr.name]
    | .unsigned | .nozero => []
  else
    match acptr.user with
    | none => [.copy acptr.name]
    | some (username, fakehost, host) =>
        match flag with
        | .none | .fake =>
            [.copy acptr.name, .put 0x21, .copy username, .put 0x40,
              .copy (if acptr.fake then fakehost else host)]
        | .fullP =>
            [.copy acptr.name, .put 0x20, .put 0x28, .copy username, .put 0x40, .copy host,
              .put 0x29]
        | .name => [.copy acptr.name]
        | .id => acptr.idSegments
        | .unsigned | .nozero => []

/-- `Iprintf_maskitem` -/
def printfMaskitem (username string : Option (List UInt8)) : List Segment :=
  (match username with
    | some username => if cstr username ≠ [] then [.copy username, .put 0x40] else []
    | none => []) ++ (string.map Segment.copy).toList

/-- `Iprintf_string_array` -/
def printfStringArray (s : Nat → List UInt8) (count : Int) : List Segment :=
  if count > 0 then
    (List.range (count.toNat - 1)).flatMap fun i => [.copy (s (i + 1)), .put 0x20]
  else [.put 0x20]

/-- What a specifier makes of its argument. -/
def PrintfEnv.spec (E : PrintfEnv) : PrintfType → PrintfFlag → PrintfArg → Option (List Segment)
  | .string, _, .string s => some [.copy (s.getD (textBytes "<NULL>"))]
  | .decimal, flag, .word w => some (printfDecimal w flag)
  | .client, flag, .client acptr => some (E.client acptr flag)
  | .numeric, _, .word w => some (printfNumeric w)
  | .char, _, .word w => some [.put w.toUInt8]
  | .channel, _, .channel chname => some [.copy chname]
  | .timestamp, _, .timestamp tsval => some (printfDecimal tsval .unsigned)
  | .confitem, _, .confitem name => some [.copy (name.getD (textBytes "(NULL)"))]
  | .maskitem, _, .maskitem username string => some (printfMaskitem username string)
  | .hex, flag, .word w => some (E.hex w flag)
  | .octal, _, .word w => some (E.octal w)
  | .charpp, _, .charpp s count => some (printfStringArray s count)
  | _, _, _ => none

/-- The segments of the pieces. -/
def PrintfEnv.segments (E : PrintfEnv) : List PrintfPiece → List PrintfArg → Option (List Segment)
  | [], _ => some []
  | .literal c :: pieces, args => (E.segments pieces args).map (.put c :: ·)
  | .spec _ _ :: _, [] => none
  | .spec printfType flag :: pieces, arg :: args =>
      (E.spec printfType flag arg).bind fun out => (E.segments pieces args).map (out ++ ·)

/-! ## The whole text -/

/-- The whole text of a segment. -/
def Segment.text : Segment → List UInt8
  | .put c => [c]
  | .copy s => cstr s

/-- The segments of a format with its arguments. -/
def PrintfEnv.formatSegments (E : PrintfEnv) (format : List UInt8) (args : List PrintfArg) :
    Option (List Segment) :=
  (printfPieces E.serverHide none format).bind fun pieces => E.segments pieces args

/-- The whole text of a format with its arguments. -/
def PrintfEnv.formatText (E : PrintfEnv) (format : List UInt8) (args : List PrintfArg) :
    Option (List UInt8) :=
  (E.formatSegments format args).map fun segs => segs.flatMap Segment.text

/-! ## Where it is written -/

/-- The bytes of a string at their places. -/
def writeFrom (len : Nat) (s : List UInt8) : List (Nat × UInt8) :=
  s.zipIdx len |>.map Prod.swap

/-- What a segment writes from `str[len]` on: the `len` behind it, and every
byte with its index. -/
def Segment.write (size len : Nat) : Segment → Nat × List (Nat × UInt8)
  | .put c => (len + 1, [(len, c)])
  | .copy s =>
      let s := if size = 0 then cstr s else (cstr s).take (size - len)
      (len + s.length, writeFrom len s)

/-- What segments write. -/
def writeSegments (size : Nat) : Nat → List Segment → Nat × List (Nat × UInt8)
  | len, [] => (len, [])
  | len, seg :: segs =>
      let (len, written) := seg.write size len
      let (len, rest) := writeSegments size len segs
      (len, written ++ rest)

/-- `Iprintf`: the length, and every byte that is written to `str`, with its
index. -/
def PrintfEnv.iprintf (E : PrintfEnv) (size : Nat) (format : List UInt8) (args : List PrintfArg) :
    Option (Nat × List (Nat × UInt8)) :=
  ((printfPieces E.serverHide none format).bind fun pieces => E.segments pieces args).map
    fun segs =>
      let (len, written) := writeSegments size 0 segs
      (len, written ++ [(len, 0)])

/-- `ircsprintf` -/
def PrintfEnv.ircsprintf (E : PrintfEnv) (format : List UInt8) (args : List PrintfArg) :
    Option (Nat × List (Nat × UInt8)) :=
  E.iprintf 0 format args

/-- `ircsnprintf` -/
def PrintfEnv.ircsnprintf (E : PrintfEnv) (size : Nat) (format : List UInt8)
    (args : List PrintfArg) : Option (Nat × List (Nat × UInt8)) :=
  E.iprintf size format args

/-!
## `src/ircsprintf.c`: a number in its array

`Iprintf_decimal` puts the digits of a number into `num` from the back, and copies
them from there to `str`. `num` is one array for all calls: what is in front of
the digits stays from the calls before. A place outside of it, or of `str`, is a
fault.
-/

/-- The `do` loop, with `s` at `&num[s]`. -/
def numDigits : Nat → UInt64 → List UInt8 → Except TextFault (Nat × List UInt8)
  | 0, _, _ => .error .outside
  | s + 1, ul, num => do
      let num ← putByte num s (digitChar (ul % 10).toNat)
      if ul / 10 = 0 then .ok (s, num) else numDigits s (ul / 10) num

/-- `while (*s && (size ? len < size : 1))`, from the place that `s` has come to. -/
def numCopy (size : Nat) :
    List UInt8 → Nat → List UInt8 → Except TextFault (Nat × List UInt8)
  | [], _, _ => .error .outside
  | c :: s, len, buf =>
      if c ≠ 0 ∧ (size = 0 ∨ len < size) then do
        numCopy size s (len + 1) (← putByte buf len c)
      else .ok (len, buf)

/-- What `Iprintf_decimal` returns, and the two arrays after it. -/
structure IprintfOut where
  len : Nat
  num : List UInt8
  buf : List UInt8
deriving DecidableEq, Repr

/-- `Iprintf_decimal` -/
def iprintfDecimal (num str : List UInt8) (pos size : Nat) (ul : UInt64) (flag : PrintfFlag) :
    Except TextFault IprintfOut := do
  let minus : Bool := flag ≠ .unsigned ∧ ul &&& 0x80000000 ≠ 0
  let buf ← if minus then putByte str pos 0x2d else .ok str
  let len := if minus then pos + 1 else pos
  let ul := if minus then 0x80000000 - (ul &&& 0x7fffffff) else ul
  let (s, num) ← numDigits 11 ul num
  let (len, buf) ← numCopy size (num.drop s) len buf
  .ok ⟨len, num, buf⟩

end TrIrcd
