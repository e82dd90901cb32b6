import TrIrcd.Src.Match

/-!
# `src/match.c`: masks

`match` compares a name with a mask that may hold wild cards and quotes. It
goes through both with two pointers and, after a `*`, goes back to where that
stood each time what follows does not fit; it gives up after a number of
turns. The pointers are indices here, and past the end of a list stands the
terminator. `collapse` makes one `*` of several.
-/

namespace TrIrcd

open TrIrcd.Lib

/-- `MATCH_MAX_CALLS` -/
def matchMaxCalls : Nat := 512

/-- The variables of `match`. -/
structure MatchSt where
  m : Nat := 0
  n : Nat := 0
  ma : Nat := 0
  na : Nat := 0
  wild : Bool := false
  quote : Nat := 0

/-- `while (*m == '*') m++` -/
def skipStars (mask : List UInt8) (m : Nat) : Nat :=
  m + ((mask.drop m).takeWhile fun c => c = 0x2a).length

/-- `for (; (m > mask) && (*m == '?'); m--)` -/
def skipBack (mask : List UInt8) : Nat → Nat
  | 0 => 0
  | m + 1 => if mask.getD (m + 1) 0 = 0x3f then skipBack mask m else m + 1

/-- What a turn does after a `*` was met: go back, or stop. -/
def MatchSt.retry (s : MatchSt) : MatchSt := { s with m := s.ma, na := s.na + 1, n := s.na + 1 }

/-- The end of a turn: the bytes under the two pointers are compared. -/
def matchByte (mask name : List UInt8) (s : MatchSt) : Except Int MatchSt :=
  let c := mask.getD s.m 0
  let d := name.getD s.n 0
  if toLower c ≠ toLower d ∧ ¬(s.quote = 0 ∧ c = 0x3f) then
    if ¬s.wild then .error 1 else .ok s.retry
  else
    .ok { s with
      m := if c ≠ 0 then s.m + 1 else s.m
      n := if d ≠ 0 then s.n + 1 else s.n }

/-- A turn of the loop of `match`, or the value returned in it. -/
def matchTurn (mask name : List UInt8) (s : MatchSt) : Except Int MatchSt := do
  let quote := if s.quote ≠ 0 then s.quote + 1 else 0
  let quote := if quote = 3 then 0 else quote
  let s := { s with quote := quote }
  if mask.getD s.m 0 = 0x5c ∧ s.quote = 0 then
    return { s with m := s.m + 1, quote := 1 }
  let s ←
    if s.quote = 0 ∧ mask.getD s.m 0 = 0x2a then
      let m := skipStars mask s.m
      if mask.getD m 0 = 0x5c then
        -- This means it is an invalid mask.
        if mask.getD (m + 1) 0 = 0 then .error 0
        else .ok { s with quote := 2, wild := true, m := m + 1, ma := m + 1, na := s.n }
      else .ok { s with wild := true, m := m, ma := m, na := s.n }
    else .ok s
  if mask.getD s.m 0 = 0 then
    if name.getD s.n 0 = 0 then .error 0
    else if s.quote ≠ 0 then .error 1
    else
      let m := skipBack mask (s.m - 1)
      if mask.getD m 0 = 0x2a ∧ 0 < m then .error 0
      else if ¬s.wild then .error 1
      else matchByte mask name s.retry
  else if name.getD s.n 0 = 0 then
    if s.quote ≠ 0 then .error 1
    else .error (if mask.getD (skipStars mask s.m) 0 ≠ 0 then 1 else 0)
  else matchByte mask name s

/-- The loop of `match`. -/
def matchLoop (mask name : List UInt8) : Nat → MatchSt → Int
  | 0, _ => 1
  | calls + 1, s =>
      match matchTurn mask name s with
      | .error ret => ret
      | .ok s => matchLoop mask name calls s

/-- `match` -/
def ircMatch (mask name : List UInt8) : Int := matchLoop mask name matchMaxCalls {}

/-! ## The reads of `match`

The same loop once more, with every `*p` a read that can be outside of the
text. `m` goes below the mask before it is compared with it, so it is an
integer there. -/

/-- `text[i]`, as long as it is a character of the text or its terminator. -/
def readAt (text : List UInt8) (i : Int) : Option UInt8 :=
  if 0 ≤ i ∧ i ≤ text.length then some (text.getD i.toNat 0) else none

/-- `while (*m == '*') m++`; a string has no more characters than `fuel`. -/
def readStars (mask : List UInt8) : Nat → Nat → Option Nat
  | 0, _ => none
  | fuel + 1, m => do
      let c ← readAt mask m
      if c = 0x2a then readStars mask fuel (m + 1) else some m

/-- `for (; (m > mask) && (*m == '?'); m--)` -/
def readBack (mask : List UInt8) : Nat → Int → Option Int
  | 0, m => some m
  | fuel + 1, m =>
      if 0 < m then do
        let c ← readAt mask m
        if c = 0x3f then readBack mask fuel (m - 1) else some m
      else some m

def readByte (mask name : List UInt8) (s : MatchSt) : Option (Except Int MatchSt) := do
  let c ← readAt mask s.m
  let d ← readAt name s.n
  if toLower c ≠ toLower d ∧ ¬(s.quote = 0 ∧ c = 0x3f) then
    if ¬s.wild then some (.error 1) else some (.ok s.retry)
  else
    some (.ok { s with
      m := if c ≠ 0 then s.m + 1 else s.m
      n := if d ≠ 0 then s.n + 1 else s.n })

/-- From the star on, or the value returned there. -/
def readStar (mask : List UInt8) (s : MatchSt) : Option (Except Int MatchSt) := do
  let c ← readAt mask s.m
  if s.quote = 0 ∧ c = 0x2a then
    let m ← readStars mask (mask.length + 1) s.m
    let c ← readAt mask m
    if c = 0x5c then
      let c ← readAt mask (m + 1 : Nat)
      if c = 0 then some (.error 0)
      else some (.ok { s with quote := 2, wild := true, m := m + 1, ma := m + 1, na := s.n })
    else some (.ok { s with wild := true, m := m, ma := m, na := s.n })
  else some (.ok s)

def readRest (mask name : List UInt8) (s : MatchSt) : Option (Except Int MatchSt) := do
  let c ← readAt mask s.m
  let d ← readAt name s.n
  if c = 0 then
    if d = 0 then some (.error 0)
    else if s.quote ≠ 0 then some (.error 1)
    else
      let m ← readBack mask s.m ((s.m : Int) - 1)
      let c ← readAt mask m
      if c = 0x2a ∧ 0 < m then some (.error 0)
      else if ¬s.wild then some (.error 1)
      else readByte mask name s.retry
  else if d = 0 then
    if s.quote ≠ 0 then some (.error 1)
    else
      let m ← readStars mask (mask.length + 1) s.m
      let c ← readAt mask m
      some (.error (if c ≠ 0 then 1 else 0))
  else readByte mask name s

/-- A turn. -/
def readTurn (mask name : List UInt8) (s : MatchSt) : Option (Except Int MatchSt) := do
  let quote := if s.quote ≠ 0 then s.quote + 1 else 0
  let quote := if quote = 3 then 0 else quote
  let s := { s with quote := quote }
  let c ← readAt mask s.m
  if c = 0x5c ∧ s.quote = 0 then some (.ok { s with m := s.m + 1, quote := 1 })
  else
    match ← readStar mask s with
    | .error ret => some (.error ret)
    | .ok s => readRest mask name s

def readLoop (mask name : List UInt8) : Nat → MatchSt → Option Int
  | 0, _ => some 1
  | calls + 1, s => do
      match ← readTurn mask name s with
      | .error ret => some ret
      | .ok s => readLoop mask name calls s

/-- The value of `match`, if it reads nothing outside of the two texts. -/
def matchRead (mask name : List UInt8) : Option Int := readLoop mask name matchMaxCalls {}

/-! ## Collapsing -/

/-- The loop of `collapse`; the flags are its two bits of `f`. -/
def collapseFrom : Bool → Bool → List UInt8 → List UInt8
  | _, _, [] => []
  | star, quote, c :: p =>
      if c = 0 then []
      else if ¬quote ∧ c = 0x2a then
        if ¬star then c :: collapseFrom true quote p else collapseFrom true quote p
      else if ¬quote ∧ c = 0x5c then c :: collapseFrom star true p
      else c :: collapseFrom false false p

/-- `collapse` -/
def collapse (pattern : List UInt8) : List UInt8 := collapseFrom false false pattern

/-- `collapse` in the memory of the mask, where `p` reads and `po` writes; `none` if
one of them leaves it. -/
def collapseIn : Nat → Bool → Bool → Nat → Nat → List UInt8 → Option (List UInt8)
  | 0, _, _, _, _, _ => none
  | n + 1, star, quote, p, po, mem =>
      match mem[p]? with
      | none => none
      | some c =>
          -- `*po = c`
          let put : Option (List UInt8) := if po < mem.length then some (mem.set po c) else none
          if c = 0 then put
          else if ¬quote ∧ c = 0x2a then
            if ¬star then put.bind (collapseIn n true quote (p + 1) (po + 1))
            else collapseIn n true quote (p + 1) po mem
          else if ¬quote ∧ c = 0x5c then put.bind (collapseIn n star true (p + 1) (po + 1))
          else put.bind (collapseIn n false false (p + 1) (po + 1))

/-- `a*bc` takes back what the star took too early, and a quoted star is one. -/
example : ircMatch [0x61, 0x2a, 0x62, 0x63] [0x61, 0x62, 0x58, 0x62, 0x63] = 0 ∧
    ircMatch [0x61, 0x5c, 0x2a] [0x61, 0x62] = 1 := by decide

end TrIrcd
