import TrIrcd.Src.Textedit

/-!
# `src/fileio.c`: reading a file through a buffer

An `Fbfile` has two buffers, `buf` for what was read and `pbuf` for what was
pushed back, which is filled from its end; `ptr`, `endp` and `pbptr` are places
in them. What the calls of `read` on the descriptor will return is part of the
state. `BUFSIZ` is an argument, and a caller's buffer is the memory it gives:
`len` is the length of it.

What is read or written outside of its buffer is a fault. A `char` has a sign.
-/

namespace TrIrcd

open TrIrcd.Lib

/-- `read`; no bytes are the end of the file. -/
inductive ReadCall
  | data (bytes : List UInt8)
  | fail
deriving DecidableEq, Repr

/-- `FB_EOF` and `FB_FAIL` -/
def fbEof : UInt32 := 1

def fbFail : UInt32 := 2

/-- `FBFILE` -/
structure Fbfile where
  reads : List ReadCall
  endp : Nat
  ptr : Nat
  pbptr : Option Nat
  flags : UInt32
  buf : List UInt8
  pbuf : List UInt8
deriving DecidableEq, Repr

/-- The value of a `char` as an `int`. -/
def charInt (c : UInt8) : Int := if c < 0x80 then c.toNat else c.toNat - 0x100

namespace Fbfile

/-- `fdbopen`; `MyMalloc` clears the memory. -/
def fdbopen (bufsiz : Nat) (reads : List ReadCall) : Fbfile where
  reads := reads
  endp := 0
  ptr := 0
  pbptr := none
  flags := 0
  buf := List.replicate bufsiz 0
  pbuf := List.replicate (bufsiz + 1) 0

/-- `fbfill` -/
def fbfill (fb : Fbfile) : Int × Fbfile :=
  if fb.flags ≠ 0 then (-1, fb)
  else
    match fb.reads with
    | [] => (0, { fb with flags := fb.flags ||| fbEof })
    | .fail :: reads => (-1, { fb with reads := reads, flags := fb.flags ||| fbFail })
    | .data bytes :: reads =>
        if 0 < bytes.length then
          (bytes.length,
            { fb with reads := reads, buf := blit fb.buf 0 bytes, ptr := 0, endp := bytes.length })
        else (0, { fb with reads := reads, flags := fb.flags ||| fbEof })

/-- `fb->ptr < fb->endp || fbfill(fb) > 0` -/
def more (fb : Fbfile) : Bool × Fbfile :=
  if fb.ptr < fb.endp then (true, fb)
  else
    let (n, fb) := fb.fbfill
    (0 < n, fb)

/-- `fb->ptr == fb->endp && fbfill(fb) < 1` -/
def drained (fb : Fbfile) : Bool × Fbfile :=
  if fb.ptr = fb.endp then
    let (n, fb) := fb.fbfill
    (n < 1, fb)
  else (false, fb)

/-- `*fb->ptr` -/
def char (fb : Fbfile) : Except TextFault UInt8 :=
  match fb.buf[fb.ptr]? with
  | none => .error .outside
  | some c => .ok c

/-- `++fb->ptr` -/
def advance (fb : Fbfile) : Fbfile := { fb with ptr := fb.ptr + 1 }

/-- The test of `fbgetc` for an empty `pbuf`. -/
def checkPushed (bufsiz : Nat) (fb : Fbfile) : Except TextFault Fbfile :=
  match fb.pbptr with
  | none => .ok fb
  | some p =>
      if p = bufsiz then .ok { fb with pbptr := none }
      else
        match fb.pbuf[p]? with
        | none => .error .outside
        | some c => .ok (if c = 0 then { fb with pbptr := none } else fb)

/-- `fbgetc`; `EOF` is `-1`. -/
def fbgetc (bufsiz : Nat) (fb : Fbfile) : Except TextFault (Int × Fbfile) := do
  let fb ← fb.checkPushed bufsiz
  let (ready, fb) := fb.more
  if ready then .ok (charInt (← fb.char), fb.advance) else .ok (-1, fb)

/-- `fbungetc` -/
def fbungetc (bufsiz : Nat) (c : UInt8) (fb : Fbfile) : Except TextFault Fbfile := do
  let p := fb.pbptr.getD bufsiz
  let fb := { fb with pbptr := some p }
  if p ≠ 0 then .ok { fb with pbptr := some (p - 1), pbuf := ← putByte fb.pbuf (p - 1) c }
  else .ok fb

/-- A `\r` was read: an `\n` behind it is skipped. -/
def skipLf (fb : Fbfile) : Except TextFault Fbfile := do
  let (ready, fb) := fb.more
  if ready then .ok (if (← fb.char) = 0x0a then fb.advance else fb) else .ok fb

/-- The loop of `fbgets`: what it puts into `buf`. -/
def fbgetsLoop : Nat → Fbfile → Except TextFault (List UInt8 × Fbfile)
  | 0, fb => .ok ([], fb)
  | len + 1, fb => do
      let c ← fb.char
      let fb := fb.advance
      if c = 0x0a then .ok ([c], fb)
      else if c = 0x0d then .ok ([0x0a], ← fb.skipLf)
      else
        let (stop, fb) := fb.drained
        if stop then .ok ([c], fb)
        else do
          let (p, fb) ← fbgetsLoop len fb
          .ok (c :: p, fb)

/-- `fbgets`: the caller's buffer after it, unless it returns 0. -/
def fbgets (buf : List UInt8) (fb : Fbfile) : Except TextFault (Option (List UInt8) × Fbfile) :=
  match fb.pbptr with
  | some p =>
      match storeAll (strlcpyIrc (fb.pbuf.drop p) buf.length) buf with
      | none => .error .outside
      | some buf => .ok (some buf, { fb with pbptr := none })
  | none =>
      let (stop, fb) := fb.drained
      if stop then .ok (none, fb)
      else do
        let (p, fb) ← fb.fbgetsLoop (buf.length - 1)
        .ok (some (blit buf 0 (p ++ [0])), fb)

end Fbfile

end TrIrcd
