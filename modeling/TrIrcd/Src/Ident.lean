import TrIrcd.Src.Httpd
import TrIrcd.Src.Motd
import TrIrcd.Src.Textedit

/-!
# `server/s_auth.c`: the reply of an ident server

`GetValidIdent` cuts the reply in its buffer: a NUL is put over each colon, and
over the comma between the ports, when it is found. The name is what the third
colon leaves, and `read_auth_reply` copies it to the client without the bytes
that a user name cannot have. Both work on memory as it is, so that what is read
or written outside is a fault.

What happens to the request when the reply is read is `AuthSt.readAuthReply`.
-/

namespace TrIrcd

open TrIrcd.Lib

/-- `AUTH_BUFSIZ` -/
def authBufsiz : Nat := 128

/-- `"USERID"` and `"unknown"` -/
def useridText : List UInt8 := [0x55, 0x53, 0x45, 0x52, 0x49, 0x44]

def unknownText : List UInt8 := [0x75, 0x6e, 0x6b, 0x6e, 0x6f, 0x77, 0x6e]

/-- The string at a place of the memory. -/
def stringAt (mem : List UInt8) (p : Nat) : Except TextFault (List UInt8) :=
  if 0 ∈ mem.drop p then .ok (cstr (mem.drop p)) else .error .outside

/-- `GetValidIdent`: where the name is, and the buffer after it. -/
def getValidIdent (buf : List UInt8) : Except TextFault (Option Nat × List UInt8) := do
  match ← strchrIn 0x3a buf 0 with
  | none => .ok (none, buf)
  | some colon1 =>
      let buf ← putByte buf colon1 0
      match ← strchrIn 0x3a buf (colon1 + 1) with
      | none => .ok (none, buf)
      | some colon2 =>
          let buf ← putByte buf colon2 0
          match ← strchrIn 0x2c buf 0 with
          | none => .ok (none, buf)
          | some comma =>
              let buf ← putByte buf comma 0
              if atoi (← stringAt buf 0) = 0 then .ok (none, buf)
              else if atoi (← stringAt buf (comma + 1)) = 0 then .ok (none, buf)
              else if ¬ strstrFinds (← stringAt buf (colon1 + 1)) useridText then .ok (none, buf)
              else
                match ← strchrIn 0x3a buf (colon2 + 1) with
                | none => .ok (none, buf)
                | some colon3 => .ok (some (colon3 + 1), ← putByte buf colon3 0)

/-- The loop that copies the name, from the place that `s` has come to. -/
def copyIdent : List UInt8 → Nat → Nat → List UInt8 → Except TextFault (Nat × List UInt8)
  | [], _, _, _ => .error .outside
  | c :: s, count, t, username =>
      if c = 0 ∨ count = 0 then .ok (t, username)
      else if c = 0x40 then .ok (t, username)
      else if ¬ isSpace c ∧ c ≠ 0x3a ∧ c ≠ 0x5b then do
        copyIdent s (count - 1) (t + 1) (← putByte username t c)
      else copyIdent s count t username

/-- What `recv` finds: nothing yet, an error, or a reply, which is empty at the
end of the stream. -/
inductive IdentRecv
  | again
  | failed
  | got (reply : List UInt8)
deriving DecidableEq, Repr

/-- What `read_auth_reply` writes to: `username` of the client and whether it has
`SetGotId`, and the counts in `ircstp`. -/
structure IdentSt where
  username : List UInt8
  gotId : Bool
  isAbad : UInt32
  isAsuc : UInt32
deriving DecidableEq, Repr

/-- The name of the reply, in the username: whether there is one. -/
def identUsername (buf username : List UInt8) : Except TextFault (Bool × List UInt8) := do
  match ← getValidIdent buf with
  | (none, _) => .ok (false, username)
  | (some s, buf) =>
      let s := (buf.drop s).dropWhile fun c => c = 0x7e ∨ c = 0x5e
      let (t, username) ← copyIdent s userLen 0 username
      .ok (true, ← putByte username t 0)

/-- `read_auth_reply`, on a buffer that holds anything. -/
def readAuthReply (recv : IdentRecv) (buf : List UInt8) (st : IdentSt) :
    Except TextFault IdentSt := do
  match recv with
  | .again => .ok st
  | .failed =>
      .ok { st with username := ← strcpyAt st.username 0 unknownText, isAbad := st.isAbad + 1 }
  | .got reply =>
      let (valid, username) ←
        if 0 < reply.length then do
          identUsername (← putByte (blit buf 0 reply) reply.length 0) st.username
        else .ok (false, st.username)
      if valid then .ok { st with username := username, gotId := true, isAsuc := st.isAsuc + 1 }
      else
        .ok { st with username := ← strcpyAt username 0 unknownText, isAbad := st.isAbad + 1 }

end TrIrcd
