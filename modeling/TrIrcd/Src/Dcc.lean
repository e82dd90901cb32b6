import TrIrcd.Src.Textedit

/-!
# `src/server/s_dcc.c`: the filter for `DCC SEND`

A message is memory from `msg` on. Behind the blanks `check_dccsend` reads it by
the distance from `filename`, so that a byte in front of the name is outside of it,
and so is a byte behind the memory. The two arrays it copies into hold what was
there before.

The notices to the two, and what they are quoted in, are not here: a message that
is blocked is the two arrays. The lengths are `int`s, which are more than a message
has.
-/

namespace TrIrcd

open TrIrcd.Lib

/-- What the filter reads of a client. -/
structure DccClient where
  person : Bool
  anOper : Bool
  /-- `MyClient` -/
  my : Bool
  /-- `IsDccallowAll` -/
  dccallowAll : Bool
  /-- `user->dccallow` -/
  dccallow : List Nat

/-- `1`, with `tmpext` and `tmpfn`, or `0`. -/
inductive DccSend
  | passed
  | blocked (tmpext tmpfn : List UInt8)
deriving DecidableEq, Repr

/-- What is returned. -/
def DccSend.value : DccSend → Int
  | .passed => 0
  | .blocked _ _ => 1

/-- `exploits_2char`: `js`, `pl` -/
def exploits2char : List (List UInt8) := [[0x6a, 0x73], [0x70, 0x6c]]

/-- `exploits_3char`: `exe`, `com`, `bat`, `dll`, `ini`, `vbs`, `pif`, `mrc`, `scr`,
`doc`, `xls`, `lnk`, `shs`, `htm` -/
def exploits3char : List (List UInt8) :=
  [[0x65, 0x78, 0x65], [0x63, 0x6f, 0x6d], [0x62, 0x61, 0x74], [0x64, 0x6c, 0x6c],
    [0x69, 0x6e, 0x69], [0x76, 0x62, 0x73], [0x70, 0x69, 0x66], [0x6d, 0x72, 0x63],
    [0x73, 0x63, 0x72], [0x64, 0x6f, 0x63], [0x78, 0x6c, 0x73], [0x6c, 0x6e, 0x6b],
    [0x73, 0x68, 0x73], [0x68, 0x74, 0x6d]]

/-- `exploits_4char`: `html` -/
def exploits4char : List (List UInt8) := [[0x68, 0x74, 0x6d, 0x6c]]

/-- The `switch`: `farray` and `arraysz`. -/
def exploits (extlen : Int) : Option (List (List UInt8) × Int) :=
  if extlen = 2 then some (exploits2char, 2)
  else if extlen = 3 then some (exploits3char, 3)
  else if extlen = 4 then some (exploits4char, 4)
  else none

/-- `allow_dcc` -/
def allowDcc (client : Nat → DccClient) (target source : Nat) : Bool :=
  (client target).dccallow.any fun acptr => acptr = source

/-- `filename[i]` -/
def nameByte (name : List UInt8) (i : Int) : Except TextFault UInt8 :=
  match name[i.toNat]? with
  | some c => if 0 ≤ i then .ok c else .error .outside
  | none => .error .outside

/-- The scan from the end of the name: `ext - filename` and `extlen`, if there is a
dot. -/
def scanExt (name : List UInt8) : Nat → Int → Int → Except TextFault (Option (Int × Int))
  | 0, _, _ => .error .endless
  | fuel + 1, ext, extlen =>
      if ext = 0 then .ok none
      else do
        let c ← nameByte name ext
        if c = 0x2e then .ok (some (ext + 1, extlen - 1))
        else scanExt name fuel (ext - 1) (extlen + 1)

/-- The loop over `farray`. -/
def findExploit (ext : List UInt8) (arraysz : Int) : List (List UInt8) → Except TextFault Bool
  | [] => .ok false
  | e :: farray => do
      if (← ircStrncmpIn (e ++ [0]) ext arraysz) = 0 then .ok true
      else findExploit ext arraysz farray

/-- `strlcpy_irc(dst, src, len); dst[len] = '\0'` -/
def copyText (dst src : List UInt8) (len : Nat) : Except TextFault (List UInt8) :=
  match storeAll (strlcpyIrc src len) dst with
  | none => .error .outside
  | some dst => putByte dst len 0

/-- What is done about a file whose extension is in a table. -/
def blockDcc (client : Nat → DccClient) (source target : Nat) (name : List UInt8) (len : Nat)
    (ext extlen : Int) (tmpext tmpfn : List UInt8) : Except TextFault DccSend :=
  if allowDcc client target source then .ok .passed
  else do
    let tmpext ← copyText tmpext (name.drop ext.toNat) extlen.toNat
    let tmpfn ← copyText tmpfn name (if 127 < len then 127 else len)
    .ok (.blocked tmpext tmpfn)

/-- `check_dccsend` from the scan on. -/
def scannedName (client : Nat → DccClient) (source target : Nat) (name : List UInt8) (len : Nat)
    (tmpext tmpfn : List UInt8) : Except TextFault DccSend := do
  match ← scanExt name (len + 1) len 0 with
  | none => .ok .passed
  | some (ext, extlen) =>
      match exploits extlen with
      | none => .ok .passed
      | some (farray, arraysz) => do
          let found ← findExploit (name.drop ext.toNat) arraysz farray
          if found then blockDcc client source target name len ext extlen tmpext tmpfn
          else .ok .passed

/-- `check_dccsend` from the name on. -/
def checkFilename (client : Nat → DccClient) (source target : Nat)
    (name tmpext tmpfn : List UInt8) : Except TextFault DccSend := do
  let c ← nameByte name 0
  if c = 0 then .ok .passed
  else
    let len := (name.takeWhile fun c => c ≠ 0x20 ∧ c ≠ 0).length
    let _ ← nameByte name len
    scannedName client source target name len tmpext tmpfn

/-- `check_dccsend`, from `source` to `target`. -/
def checkDccsend (client : Nat → DccClient) (source target : Nat)
    (msg tmpext tmpfn : List UInt8) : Except TextFault DccSend :=
  if source = target || !(client source).person || (client source).anOper ||
      !(client target).my || (client target).dccallowAll then .ok .passed
  else
    let filename := 8 + ((msg.drop 8).takeWhile fun c => c = 0x20).length
    checkFilename client source target (msg.drop filename) tmpext tmpfn

end TrIrcd
