import TrIrcd.Src.Ircsprintf
import TrIrcd.Src.Maskitem
import TrIrcd.Src.Throttle

/-!
# `src/support.c`: addresses as text, in a build with `IPV6`

An address is its bytes, in network order. A text is a C string: bytes without a
NUL. What `inetntop` answers is the text that it puts into `dst`, with a NUL
behind it; `none` is `NULL`. What `inetpton` answers is the address, `none` for
0.
-/

namespace TrIrcd

open TrIrcd.Lib

/-- `struct in_addr` -/
structure InAddr where
  b0 : UInt8
  b1 : UInt8
  b2 : UInt8
  b3 : UInt8
deriving DecidableEq, Repr

def InAddr.bytes (src : InAddr) : List UInt8 := [src.b0, src.b1, src.b2, src.b3]

/-- `struct in6_addr` -/
structure In6Addr where
  bytes : List UInt8
  length : bytes.length = 16
deriving DecidableEq, Repr

namespace In6Addr

/-- The last four bytes. -/
def last (src : In6Addr) : InAddr :=
  ⟨src.bytes.getD 12 0, src.bytes.getD 13 0, src.bytes.getD 14 0, src.bytes.getD 15 0⟩

/-- `IN6_IS_ADDR_V4MAPPED` -/
def v4Mapped (src : In6Addr) : Bool :=
  src.bytes.take 12 = List.replicate 10 0 ++ [0xff, 0xff]

/-- `IN6_IS_ADDR_V4COMPAT` -/
def v4Compat (src : In6Addr) : Bool :=
  src.bytes.take 12 = List.replicate 12 0 &&
    (src.bytes.drop 12 ≠ [0, 0, 0, 0] && src.bytes.drop 12 ≠ [0, 0, 0, 1])

end In6Addr

/-! ## Addresses to text -/

/-- `inetntoa`, of the bytes in memory -/
def inetntoaBytes (src : InAddr) : List UInt8 :=
  ipQuadTab src.b0 ++ 0x2e :: (ipQuadTab src.b1 ++ 0x2e :: (ipQuadTab src.b2 ++
    0x2e :: ipQuadTab src.b3))

/-- `inet_ntop4` -/
def inetNtop4 (src : InAddr) (size : Nat) : Option (List UInt8) :=
  if size < 15 then none else some (inetntoaBytes src)

/-- `struct { int base, len; }`, where a base of -1 is `none`. -/
structure ZeroRun where
  base : Nat
  len : Nat
deriving DecidableEq, Repr

/-- `if (best.base == -1 || cur.len > best.len) best = cur` -/
def betterRun (best : Option ZeroRun) (cur : ZeroRun) : Option ZeroRun :=
  match best with
  | none => some cur
  | some best => if best.len < cur.len then some cur else some best

/-- The loop that looks for the longest run of zeros, from the word `i` on: `best`
and `cur` after it. -/
def runLoop : List Nat → Nat → Option ZeroRun → Option ZeroRun → Option ZeroRun × Option ZeroRun
  | [], _, best, cur => (best, cur)
  | w :: words, i, best, cur =>
      if w = 0 then
        match cur with
        | none => runLoop words (i + 1) best (some ⟨i, 1⟩)
        | some cur => runLoop words (i + 1) best (some ⟨cur.base, cur.len + 1⟩)
      else
        match cur with
        | none => runLoop words (i + 1) best none
        | some cur => runLoop words (i + 1) (betterRun best cur) none

/-- The run that is written as `::`. -/
def bestRun (words : List Nat) : Option ZeroRun :=
  let (best, cur) := runLoop words 0 none none
  let best := match cur with
    | none => best
    | some cur => betterRun best cur
  best.filter fun best => 2 ≤ best.len

/-- `words` -/
def In6Addr.words (src : In6Addr) : List Nat :=
  (List.range 8).map fun i =>
    (src.bytes.getD (2 * i) 0).toNat <<< 8 ||| (src.bytes.getD (2 * i + 1) 0).toNat

/-- What `ircsprintf` makes of `%n` and a word that is not negative. -/
def hexText (w : Nat) : List UInt8 := (loopDigits 16 64 w).map digitChar

/-- `sizeof tmp` -/
def ntopSize : Nat := 46

/-- `Format the result`, from the word `i` on. -/
def ntopLoop (src : In6Addr) (best : Option ZeroRun) :
    List Nat → Nat → List UInt8 → Option (List UInt8)
  | [], _, tmp => some tmp
  | w :: words, i, tmp =>
      if best.any fun best => best.base ≤ i ∧ i < best.base + best.len then
        ntopLoop src best words (i + 1) (if best.any fun best => i = best.base then
          tmp ++ [0x3a] else tmp)
      else
        let tmp := if i ≠ 0 then tmp ++ [0x3a] else tmp
        if i = 6 ∧ best.any fun best => best.base = 0 ∧
            (best.len = 6 ∨ best.len = 5 ∧ src.words.getD 5 0 = 0xffff) then
          (inetNtop4 src.last (ntopSize - tmp.length)).map fun quad => tmp ++ quad
        else ntopLoop src best words (i + 1) (tmp ++ hexText w)

/-- `inet_ntop6` -/
def inetNtop6 (src : In6Addr) (size : Nat) : Option (List UInt8) :=
  let best := bestRun src.words
  (ntopLoop src best src.words 0 []).bind fun tmp =>
    let tmp := if best.any fun best => best.base + best.len = 8 then tmp ++ [0x3a] else tmp
    if size < tmp.length + 1 then none else some tmp

/-- An address of either family. -/
inductive InetAddr
  | inet (src : InAddr)
  | inet6 (src : In6Addr)
deriving DecidableEq, Repr

/-- `inetntop` -/
def inetntop : InetAddr → Nat → Option (List UInt8)
  | .inet src, size => inetNtop4 src size
  | .inet6 src, size =>
      if src.v4Mapped || src.v4Compat then inetNtop4 src.last size else inetNtop6 src size

/-! ## Text to addresses -/

/-- The loop of `inet_pton4`: `done` is `tmp` in front of `tp`, `cur` is `*tp`. -/
def pton4Loop (done : List UInt8) (cur : Nat) (sawDigit : Bool) (octets : Nat) :
    List UInt8 → Option InAddr
  | [] =>
      if octets < 4 then none
      else
        let tmp := done ++ [UInt8.ofNat cur]
        some ⟨tmp.getD 0 0, tmp.getD 1 0, tmp.getD 2 0, tmp.getD 3 0⟩
  | ch :: src =>
      if isDigit ch then
        let new := cur * 10 + (ch.toNat - 0x30)
        if 255 < new then none
        else if sawDigit then pton4Loop done new true octets src
        else if 4 < octets + 1 then none
        else pton4Loop done new true (octets + 1) src
      else if ch = 0x2e ∧ sawDigit then
        if octets = 4 then none else pton4Loop (done ++ [UInt8.ofNat cur]) 0 false octets src
      else none

/-- `inet_pton4` -/
def inetPton4 (src : List UInt8) : Option InAddr := pton4Loop [] 0 false 0 src

/-- `xdigits` -/
def xdigits : List UInt8 :=
  [0x30, 0x31, 0x32, 0x33, 0x34, 0x35, 0x36, 0x37, 0x38, 0x39, 0x61, 0x62, 0x63, 0x64, 0x65, 0x66]

/-- The variables of `inet_pton6`: `out` is `tmp` in front of `tp`. -/
structure Pton6 where
  out : List UInt8
  colonp : Option Nat
  val : Nat
  sawXdigit : Bool
  curtok : List UInt8
deriving DecidableEq, Repr

/-- `*tp++ = (val >> 8) & 0xff; *tp++ = val & 0xff`, if there is room. -/
def Pton6.push (st : Pton6) : Option Pton6 :=
  if 16 < st.out.length + 2 then none
  else some { st with out := st.out ++ [UInt8.ofNat (st.val >>> 8), UInt8.ofNat st.val] }

/-- The loop of `inet_pton6`. -/
def pton6Loop (st : Pton6) : List UInt8 → Option Pton6
  | [] => some st
  | c :: src =>
      let ch := toLower c
      match xdigits.idxOf? ch with
      | some d =>
          let val := st.val <<< 4 ||| d
          if 0xffff < val then none else pton6Loop { st with val := val, sawXdigit := true } src
      | none =>
          if ch = 0x3a then
            if ¬ st.sawXdigit then
              if st.colonp.isSome then none
              else pton6Loop { st with colonp := some st.out.length, curtok := src } src
            else if src = [] then none
            else
              match st.push with
              | none => none
              | some st => pton6Loop { st with sawXdigit := false, val := 0, curtok := src } src
          else if src ≠ [] ∧ ch = 0x2e then
            if st.out.length + 4 ≤ 16 then
              (inetPton4 st.curtok).map fun quad =>
                { st with out := st.out ++ quad.bytes, sawXdigit := false }
            else none
          -- Any other character is skipped, and so is a dot at the end.
          else pton6Loop st src

/-- The shift by hand: the `n` bytes from `colonp` on go to the end of `tmp`. -/
def ptonShift (colonp n : Nat) (tmp : List UInt8) : List UInt8 :=
  (List.range n).foldl (fun tmp k =>
    let i := k + 1
    (tmp.set (16 - i) (tmp.getD (colonp + (n - i)) 0)).set (colonp + (n - i)) 0) tmp

/-- What follows the loop of `inet_pton6`. -/
def pton6Finish (st : Pton6) : Option (List UInt8) :=
  (if st.sawXdigit then st.push else some st).bind fun st =>
    let tmp := st.out ++ List.replicate (16 - st.out.length) 0
    match st.colonp with
    | none => if st.out.length ≠ 16 then none else some tmp
    | some colonp =>
        if st.out.length = 16 then none
        else some (ptonShift colonp (st.out.length - colonp) tmp)

/-- `inet_pton6`: the bytes of the address. -/
def inetPton6 (src : List UInt8) : Option (List UInt8) :=
  (match src with
    | [] => some []
    | c :: rest =>
        if c = 0x3a then if rest.head? = some 0x3a then some rest else none else some src).bind
    fun src => (pton6Loop ⟨[], none, 0, false, src⟩ src).bind pton6Finish

/-- `AF_INET` and `AF_INET6` -/
inductive InetFamily
  | inet | inet6
deriving DecidableEq, Repr

inductive InetFault
  /-- `tmp[HOSTIPLEN]` is written. -/
  | overflow
deriving DecidableEq, Repr

/-- `"::ffff:"` -/
def mappedPrefix : List UInt8 := [0x3a, 0x3a, 0x66, 0x66, 0x66, 0x66, 0x3a]

/-- `inetpton`: the bytes of the address. -/
def inetpton (af : InetFamily) (src : List UInt8) : Except InetFault (Option (List UInt8)) :=
  match af with
  | .inet => .ok ((inetPton4 src).map InAddr.bytes)
  | .inet6 =>
      if (inetPton4 src).isSome then
        let tmp := mappedPrefix ++ src
        if hostIpLen < tmp.length + 1 then .error .overflow else .ok (inetPton6 tmp)
      else .ok (inetPton6 src)

end TrIrcd
