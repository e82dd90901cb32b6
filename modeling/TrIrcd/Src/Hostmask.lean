import TrIrcd.Src.Httpd
import TrIrcd.Src.Maskitem

/-!
# `src/hostmask.c`, in a build with `IPV6`

`d` is held as its first `dp` elements, which are finished, and `d[dp]`; the
elements behind that are 0 until they are reached. An address is the 16 bytes of
`s6_addr`.
-/

namespace TrIrcd

open TrIrcd.Lib

/-- `DigitParse`, of a digit. A letter counts from `'0'` on. -/
def digitParse (ch : UInt8) : Nat :=
  if 0x30 ≤ ch ∧ ch ≤ 0x39 then ch.toNat - 0x30
  else if 0x41 ≤ ch ∧ ch ≤ 0x46 then ch.toNat - 0x41 + 0x30
  else ch.toNat - 0x61 + 0x30

/-- The value of `try_parse_v6_netmask`. -/
inductive Netmask6
  | host
  | ipv6 (s6Addr : List UInt8) (bits : Int)
deriving DecidableEq, Repr

/-- The variables of the scan: `done` is `d[0]` to `d[dp - 1]`, `cur` is `d[dp]`. -/
structure V6Scan where
  done : List Nat
  cur : Nat
  nyble : Nat
  finsert : Option Nat
deriving DecidableEq, Repr

namespace V6Scan

def init : V6Scan where
  done := []
  cur := 0
  nyble := 4
  finsert := none

/-- `d[dp] = d[dp] >> 4 * nyble`, and on to the next. -/
def next (st : V6Scan) : V6Scan :=
  { st with done := st.done ++ [st.cur >>> (4 * st.nyble)], cur := 0 }

/-- The branch for a slash, with what follows it. -/
def slash (st : V6Scan) (colon : Bool) (p : List UInt8) : Option (V6Scan × Int × Bool) :=
  let st := st.next
  if colon then none
  else
    let (v, after) := strtoul10 p
    let bits : Int := v.toUInt32.toInt32.toInt
    if bits = 0 ∨ after ≠ [] then none
    else if (st.done.length * 4 : Nat) < bits ∧ ¬ (st.finsert.isSome ∧ bits ≤ 128) then none
    else some (st, bits, false)

/-- The loop over the text: what it leaves in the variables and in `bits`, and
whether it has come to the end. `colon` tells if the byte before is one. -/
def scan (st : V6Scan) (colon : Bool) : List UInt8 → Option (V6Scan × Int × Bool)
  | [] => some (st, 0, true)
  | c :: p =>
      if isXDigit c then
        if st.nyble = 0 then none
        else
          scan { st with
            cur := st.cur ||| digitParse c <<< (4 * (st.nyble - 1))
            nyble := st.nyble - 1 } false p
      else if c = 0x3a then
        if colon then
          if st.finsert.isSome then none
          else scan { st with finsert := some st.done.length } true p
        else
          let st := { st.next with nyble := 4 }
          if 8 ≤ st.done.length then none else scan st true p
      else if c = 0x2a then
        if st.finsert.isSome ∨ p ≠ [] ∨ st.done = [] ∨ ¬ colon then none
        else some (st, st.done.length * 16, true)
      else if c = 0x2f then st.slash colon p
      else none

end V6Scan

/-- `fill in the gaps`: the next `n` elements of the copied table, with what is
left of `d` from `nyble` on. -/
def fillGaps (finsert : Option Nat) : Nat → Nat → List Nat → Int → List Nat
  | 0, _, _, _ => []
  | n + 1, nyble, d, deficit =>
      if finsert = some nyble ∧ deficit ≠ 0 then
        0 :: fillGaps finsert n nyble d (deficit - 1)
      else d.headD 0 :: fillGaps finsert n (nyble + 1) d.tail deficit

/-- The words that some bits are in. -/
def bitWords (bits : Int) : Int := bits.tdiv 16 + if bits.tmod 16 ≠ 0 then 1 else 0

/-- `Set unused bits to 0` -/
def clearUnusedV6 (dc : List UInt16) (bits : Int) : Except MaskFault (List UInt16) :=
  if (bits.tmod 16 ≠ 0 ∧ bits.tdiv 16 < 0) ∨ bitWords bits < 0 then .error .outOfBounds
  else
    .ok (dc.mapIdx fun dp w =>
      if bitWords bits ≤ dp then 0
      else if bits < 128 ∧ bits.tmod 16 ≠ 0 ∧ bits.tdiv 16 = dp then
        w &&& ~~~UInt16.ofNat ((1 <<< (15 - bits.tmod 16).toNat) - 1)
      else w)

/-- The memory of words in network order. -/
def htonsAll (dc : List UInt16) : List UInt8 :=
  dc.flatMap fun w : UInt16 => [(w >>> 8).toUInt8, w.toUInt8]

/-- What follows the scan. -/
def finishV6 (st : V6Scan) (bits : Int) (ended : Bool) : Except MaskFault Netmask6 :=
  if 8 ≤ st.done.length then .error .outOfBounds
  else
    let d := st.next.done
    let dp : Int := if ended then d.length else st.done.length
    let bits :=
      if st.finsert.isNone ∧ bits = 0 then dp * 16 else if bits = 0 then 128 else bits
    let dc := (fillGaps st.finsert 8 0 d (bitWords bits - dp)).map UInt16.ofNat
    (clearUnusedV6 dc bits).map fun dc => .ipv6 (htonsAll dc) bits

/-- `try_parse_v6_netmask` -/
def tryParseV6Netmask (text : List UInt8) : Except MaskFault Netmask6 :=
  match V6Scan.init.scan false text with
  | none => .ok .host
  | some (st, bits, ended) => finishV6 st bits ended

/-- `match_ipv6`, for a number of bits that is not negative. -/
def matchIpv6 (addr mask : List UInt8) (bits : Nat) : Int :=
  let n := bits / 8
  if (List.range n).any fun i => addr.getD i 0 ≠ mask.getD i 0 then 1
  else
    let m := bits % 8
    if m = 0 then 0
    else if addr.getD n 0 &&& ~~~UInt8.ofNat ((1 <<< (8 - m)) - 1) = mask.getD n 0 then 0
    else 1

end TrIrcd
