import TrIrcd.Proofs.PrefixParse

/-!
# `interproc/interproc.c`: lines of the local socket

A line is a C string: bytes without a NUL. What the handlers do, and the log,
are left out.
-/

namespace TrIrcd

open TrIrcd.Lib

/-- The handlers in `interproc_tab`. -/
inductive IprocFunc
  | kline | gnotice | globops | akill | notice
deriving DecidableEq, Repr

inductive InterprocFault
  /-- A byte behind the terminator is read. -/
  | pastEnd
  /-- `parv[MAXPARA + 1]` is written. -/
  | overflow
  /-- An entry behind `interproc_tab[127]` is read. -/
  | pastTable
deriving DecidableEq, Repr

/-- What is done for a line: a numeric goes to the user it is for, if there is
one; for everything else the handler of the token, if it has one, is called. -/
inductive InterprocAct
  | numeric (acptr : Option Nat) (command text : List UInt8)
  | call (func : Option IprocFunc) (parv : List (List UInt8))
deriving DecidableEq, Repr

/-- `interproc_tab`, for the tokens that have a handler -/
def interprocFuncs : List (UInt8 × IprocFunc) :=
  [(0x46, .kline), (0x47, .gnotice), (0x4c, .globops), (0x61, .akill), (0x6e, .notice)]

def interprocTab (token : UInt8) : Except InterprocFault (Option IprocFunc) :=
  if token < 0x80 then .ok (interprocFuncs.lookup token) else .error .pastTable

/-- The test for a numeric. It adds to the character, not to the pointer. -/
def numericTest (command : UInt8) : Bool :=
  isDigit10 command && (command + 1 ≠ 0 && isDigit10 (command + 1)) &&
    (command + 2 ≠ 0 && isDigit10 (command + 2))

/-- The loop over the parameters, with `parv[0]` to `parv[i]`. -/
def interprocParams (parv : List (List UInt8)) (s : List UInt8) :
    Except InterprocFault (List (List UInt8)) :=
  if parv.length ≤ maxPara + 1 then
    match _ : skipSpaces s with
    | [] => .ok parv
    | c :: t =>
        if maxPara + 1 ≤ parv.length then .error .overflow
        else if c = 0x3a then .ok (parv ++ [t])
        else interprocParams (parv ++ [firstWord (c :: t)]) (pastWord (c :: t))
  else .ok parv
termination_by s.length
decreasing_by
  next hs _ _ =>
  have hlen := skipSpaces_length s
  rw [hs] at hlen
  exact Nat.lt_of_le_of_lt (pastWord_length (skipSpaces_head hs) t) hlen

namespace ParseSt

/-- The numeric `line`, from what follows its first byte and the spaces behind that. -/
def interprocNumeric (st : ParseSt) (line s : List UInt8) : Except InterprocFault InterprocAct :=
  match skipSpaces (pastWord s) with
  | [] => .error .pastEnd
  | c :: t =>
      let acptr := (st.find (firstWord (c :: t))).filter fun acptr => (st.client acptr).isPerson
      .ok (.numeric acptr (firstWord line) (skipSpaces (pastWord (c :: t))))

/-- `parse_interproc` -/
def parseInterproc (st : ParseSt) (me : Nat) (buf : List UInt8) :
    Except InterprocFault InterprocAct :=
  match skipSpaces buf with
  | [] => .error .pastEnd
  | command :: s =>
      if numericTest command then st.interprocNumeric (command :: s) (skipSpaces s)
      else
        (interprocParams [st.names.name me] (skipSpaces s)).bind fun parv =>
          (interprocTab command).map fun func => .call func parv

end ParseSt

end TrIrcd
