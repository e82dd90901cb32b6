import TrIrcd.Lib.Bytes
import TrIrcd.Src.Bans
import TrIrcd.Src.Match

/-!
# `src/textedit.c`, and `strtoken` of `src/support.c`

`canonize` takes the items of a text apart with one `strtoken` and looks for each
among those it has put into `cbuf` with another: both write into the memory they
go through, and what the second one cuts is put together again. So the memory is
there as it is, a list of bytes, and a pointer is a place in it. What is read or
written outside is a fault of its own.
-/

namespace TrIrcd

open TrIrcd.Lib

inductive TextFault
  /-- A byte outside the memory. -/
  | outside
  /-- A loop has not come to its end. -/
  | endless
deriving DecidableEq, Repr

/-- `mem[i] = c` -/
def putByte (mem : List UInt8) (i : Nat) (c : UInt8) : Except TextFault (List UInt8) :=
  if i < mem.length then .ok (mem.set i c) else .error .outside

theorem putByte_middle (pre post : List UInt8) (x y : UInt8) :
    putByte (pre ++ x :: post) pre.length y = .ok (pre ++ y :: post) := by
  have hlt : pre.length < (pre ++ x :: post).length := by
    rw [List.length_append, List.length_cons]
    omega
  rw [putByte, if_pos hlt, set_middle]

/-- `strcpy(mem + i, s)` -/
def strcpyAt (mem : List UInt8) (i : Nat) (s : List UInt8) : Except TextFault (List UInt8) :=
  if i + (s.length + 1) ≤ mem.length then .ok (blit mem i (s ++ [0])) else .error .outside

theorem strcpyAt_middle {pre post s : List UInt8} (h : s.length + 1 ≤ post.length) :
    strcpyAt (pre ++ post) pre.length s = .ok (pre ++ (s ++ 0 :: post.drop (s.length + 1))) := by
  have hlt : pre.length + (s.length + 1) ≤ (pre ++ post).length := by
    rw [List.length_append]
    omega
  have hlen : pre.length + (s ++ [0]).length = (pre.length + (s.length + 1)) := by
    rw [List.length_append, List.length_singleton]
  rw [strcpyAt, if_pos hlt, blit, List.take_left, hlen, ← List.drop_drop, List.drop_left]
  simp only [List.append_assoc, List.cons_append, List.nil_append]

/-! ## `strtoken` -/

/-- What `strtoken` returns, and `*save` and the memory after it. -/
structure StrToken where
  tmp : Option Nat
  save : Option Nat
  mem : List UInt8
deriving DecidableEq, Repr

/-- `strtoken`: the token starts at `tmp` and ends at `stop`. -/
def strtoken (fs mem : List UInt8) (save str : Option Nat) : Except TextFault StrToken :=
  match str.or save with
  | none => .ok ⟨none, none, mem⟩
  | some pos =>
      let tmp := pos + ((mem.drop pos).takeWhile fun c => c ≠ 0 ∧ c ∈ fs).length
      match mem[tmp]? with
      | none => .error .outside
      | some c =>
          if c = 0 then .ok ⟨none, none, mem⟩
          else
            let stop := tmp + ((mem.drop tmp).takeWhile fun c => c ≠ 0 ∧ c ∉ fs).length
            match mem[stop]? with
            | none => .error .outside
            | some c =>
                if c = 0 then .ok ⟨some tmp, none, mem⟩
                else .ok ⟨some tmp, some (stop + 1), mem.set stop 0⟩

/-! ## `canonize` -/

/-- `","` -/
def comma : List UInt8 := [0x2c]

/-- `if (p2) p2[-1] = ','` -/
def StrToken.patch (t : StrToken) : Except TextFault (List UInt8) :=
  match t.save with
  | none => .ok t.mem
  | some p2 => putByte t.mem (p2 - 1) 0x2c

/-- The loop of `canonize` over `cbuf`, for the item `s`. -/
def canonizeFind (s : List UInt8) :
    Nat → Option Nat → Option Nat → List UInt8 → Except TextFault StrToken
  | 0, _, _, _ => .error .endless
  | fuel + 1, p2, str, cbuf => do
      let t ← strtoken comma cbuf p2 str
      match t.tmp with
      | none => .ok t
      | some tmp =>
          if ircStrcmp s (cstr (t.mem.drop tmp)) = 0 then .ok t
          else canonizeFind s fuel t.save none (← t.patch)

/-- The variables of `canonize`. -/
structure CanonizeSt where
  buffer : List UInt8
  cbuf : List UInt8
  cp : Nat
  l : Bool
  p : Option Nat
deriving DecidableEq, Repr

/-- An item that is in `cbuf` already leaves it as it is; another one is put to
its end. -/
def CanonizeSt.item (st : CanonizeSt) (s : Nat) : Except TextFault CanonizeSt := do
  let text := cstr (st.buffer.drop s)
  let t ← if st.l then canonizeFind text (st.cbuf.length + 1) none (some 0) st.cbuf
    else .ok ⟨none, none, st.cbuf⟩
  match t.tmp with
  | none =>
      let cbuf ← if st.l then putByte t.mem (st.cp - 1) 0x2c else .ok t.mem
      let cbuf ← strcpyAt cbuf st.cp text
      .ok { st with
        cbuf := cbuf
        cp := match st.p with
          | none => st.cp
          | some p => st.cp + (p - s)
        l := true }
  | some _ => do
      let cbuf ← t.patch
      .ok { st with cbuf := cbuf }

/-- The loop of `canonize` over `buffer`. -/
def canonizeLoop : Nat → Option Nat → CanonizeSt → Except TextFault CanonizeSt
  | 0, _, _ => .error .endless
  | fuel + 1, str, st => do
      let t ← strtoken comma st.buffer st.p str
      let st := { st with buffer := t.mem, p := t.save }
      match t.tmp with
      | none => .ok st
      | some s => canonizeLoop fuel none (← st.item s)

/-- `canonize`: `buffer` and `cbuf` after it, of which the second is returned. -/
def canonize (buffer cbuf : List UInt8) : Except TextFault (List UInt8 × List UInt8) := do
  let cbuf ← putByte cbuf 0 0
  let st ← canonizeLoop (buffer.length + 1) (some 0) ⟨buffer, cbuf, 0, false, none⟩
  .ok (st.buffer, st.cbuf)

/-! ## `pretty_mask` -/

/-- What stands before and behind the byte that `strchr` finds. -/
def strchrCut (c : UInt8) (s : List UInt8) : Option (List UInt8 × List UInt8) :=
  if c ∈ s then some (s.takeWhile (· ≠ c), (s.dropWhile (· ≠ c)).tail) else none

/-- And `strrchr`. -/
def strrchrCut (c : UInt8) (s : List UInt8) : Option (List UInt8 × List UInt8) :=
  (strchrCut c s.reverse).map fun cut => (cut.2.reverse, cut.1.reverse)

/-- `pretty_mask`; to `make_nick_user_host` an empty string is what `NULL` is. -/
def prettyMask (mask : List UInt8) : List UInt8 :=
  let (cp, user) := match strchrCut 0x21 mask with
    | none => (mask, none)
    | some (cp, user) => (cp, some user)
  match strrchrCut 0x40 (user.getD cp) with
  | some (cut, host) =>
      if user = none then makeNickUserHost [] cut host else makeNickUserHost cp cut host
  | none =>
      if user = none ∧ 0x2e ∈ cp then makeNickUserHost [] [] cp
      else makeNickUserHost cp (user.getD []) []

/-! ## `check_for_ctcp` -/

/-- `irc_strncmp`, in memory that ends somewhere. -/
def ircStrncmpIn : List UInt8 → List UInt8 → Int → Except TextFault Int
  | c1 :: s1, c2 :: s2, n =>
      let res : Int := (toUpper c1).toNat - (toUpper c2).toNat
      if res ≠ 0 then .ok res
      else if n - 1 = 0 then .ok 0
      else if s1.head? = some 0 ∧ s2.head? = some 0 then .ok 0
      else ircStrncmpIn s1 s2 (n - 1)
  | _, _, _ => .error .outside

/-- `strchr`, from a place on. -/
def strchrIn (c : UInt8) (mem : List UInt8) (p : Nat) : Except TextFault (Option Nat) :=
  let q := p + ((mem.drop p).takeWhile fun b => b ≠ c ∧ b ≠ 0).length
  match mem[q]? with
  | none => .error .outside
  | some b => if b = c then .ok (some q) else .ok none

section Strchr

variable {c : UInt8} {mem text rest : List UInt8} {p : Nat}

theorem strchrIn_none (hc : c ≠ 0) (h0 : 0 ∉ text) (hnot : c ∉ text)
    (hmem : mem.drop p = text ++ 0 :: rest) : strchrIn c mem p = .ok none := by
  have hall : ∀ b ∈ text, decide (b ≠ c ∧ b ≠ 0) = true := fun b hb =>
    decide_eq_true ⟨fun h => hnot (h ▸ hb), fun h => h0 (h ▸ hb)⟩
  have htake : (mem.drop p).takeWhile (fun b => b ≠ c ∧ b ≠ 0) = text := by
    rw [hmem]
    exact takeWhile_stop hall (decide_eq_false fun h => h.2 rfl)
  rw [strchrIn]
  simp only [htake, getElem?_drop_append hmem]
  exact if_neg hc.symm

theorem strchrIn_some (h0 : 0 ∉ text) (hnot : c ∉ text)
    (hmem : mem.drop p = text ++ c :: rest) :
    strchrIn c mem p = .ok (some (p + text.length)) := by
  have hall : ∀ b ∈ text, decide (b ≠ c ∧ b ≠ 0) = true := fun b hb =>
    decide_eq_true ⟨fun h => hnot (h ▸ hb), fun h => h0 (h ▸ hb)⟩
  have htake : (mem.drop p).takeWhile (fun b => b ≠ c ∧ b ≠ 0) = text := by
    rw [hmem]
    exact takeWhile_stop hall (decide_eq_false fun h => h.1 rfl)
  rw [strchrIn]
  simp only [htake, getElem?_drop_append hmem, if_true]

end Strchr

/-- `CTCP_NONE` and the others -/
inductive Ctcp
  | none
  | yes
  | dcc
  | dccsend
deriving DecidableEq, Repr

/-- `"DCC"` and `" SEND"` -/
def dccText : List UInt8 := [0x44, 0x43, 0x43]

def sendText : List UInt8 := [0x20, 0x53, 0x45, 0x4e, 0x44]

/-- `check_for_ctcp`, and what is put into `*dccptr`. The `while` does not turn:
its body returns or breaks. -/
def checkForCtcp (str : List UInt8) (checkonly : Bool) :
    Except TextFault (Ctcp × Option Nat) := do
  let first ← strchrIn 1 str 0
  if checkonly ∧ first.isSome then .ok (.yes, none)
  else
    match first with
    | none => .ok (.none, none)
    | some q =>
        let p := q + 1
        if (← ircStrncmpIn (str.drop p) (dccText ++ [0]) 3) = 0 then
          if (← ircStrncmpIn (str.drop (p + 3)) (sendText ++ [0]) 5) = 0 then
            .ok (.dccsend, some p)
          else .ok (.dcc, some p)
        else
          match str[p + 1]? with
          | none => .error .outside
          | some c => if c = 0 then .ok (.none, none) else .ok (.yes, none)

/-!
## `src/support.c`: copying a string

`strlcpy_irc` copies as many characters as it is told, and a NUL behind them:
what it is given is a length, one less than the size that `strlcpy` takes.
Written are bytes with their index in `dst`.
-/

/-- The loop of `strlcpy_irc2` from `dst[i]` on; the NUL behind the last
character is part of it. -/
def strlcpyLoop : Nat → Nat → List UInt8 → List (Nat × UInt8)
  | 0, i, _ => [(i, 0)]
  | n + 1, i, src =>
      let c := src.headD 0
      if c = 0 then [(i, 0)] else (i, c) :: strlcpyLoop n (i + 1) src.tail

/-- `strlcpy_irc2` -/
def strlcpyIrc2 (src : List UInt8) (siz : Nat) : List (Nat × UInt8) :=
  if siz = 0 then [] else strlcpyLoop (siz - 1) 0 src

/-- `strlcpy_irc` -/
def strlcpyIrc (src : List UInt8) (siz : Nat) : List (Nat × UInt8) :=
  strlcpyIrc2 src (siz + 1)

end TrIrcd
