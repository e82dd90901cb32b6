import TrIrcd.Lib.Alloc
import TrIrcd.Lib.Bytes
import Mathlib.Data.List.DropRight

/-!
# `src/linebuf.c`: line buffers

A buffer head owns a list of lines. A line holds up to 512 bytes and may be
on the lists of many heads at once, which its reference count counts; the
offset up to which its bytes were written belongs to the head. Data read from
a socket is cut into lines by `linebufParse` and taken out by `linebufGet`;
data to be written is put into a head of its own, attached to the send queues
of the clients it goes to, and written by `linebufFlush`.

Lines are addresses that `linebuf_heap` hands out. The nodes of the lists are
left out: a head's list is the list of its lines, and every function here
removes the first. A failed assertion has no next state, and answers which
assertion it was.

Two functions look one byte further than they should. `linebuf_copy_raw`
reads the byte after the data when it has used them up; the parameter `after`
is that byte. The loop that takes the line end off a full line can run past
the start of the buffer when all of it is CR and LF; here it stops there.
-/

namespace TrIrcd

open Function (update)
open TrIrcd.Lib

/-- `BUF_DATA_SIZE` -/
def bufDataSize : Nat := 512

/-- `buf_line_t` -/
structure BufLine where
  buf : List UInt8
  terminated : Bool
  flushing : Bool
  raw : Bool
  len : Nat
  refcount : Int

/-- The buffer heads: two in every client, and those on the stack of the
functions that send. -/
inductive HeadId
  | sendQ (cptr : Nat)
  | recvQ (cptr : Nat)
  | linebuf (n : Nat)
  deriving DecidableEq, Repr

/-- `buf_head_t` -/
structure BufHead where
  list : List Nat
  len : Int
  alloclen : Int
  writeofs : Nat
  numlines : Int

structure LineSt where
  line : Nat → BufLine
  /-- The lines `linebuf_heap` has handed out and not got back. -/
  blocks : List Nat
  head : HeadId → BufHead
  buflineCount : Int

/-- The assertions that can fail, and the two calls C gives no end or no
meaning to. -/
inductive LineStop
  /-- `assert(bufhead->len >= 0)` -/
  | headLen
  /-- `assert(bufline->refcount >= 0)` -/
  | refcount
  /-- `assert(bufline_count >= 0)` -/
  | lineCount
  /-- `assert(orig_len > len)` -/
  | skipped
  /-- `assert(bufline->len < BUF_DATA_SIZE)` -/
  | full
  /-- `assert(!bufline->flushing)` -/
  | flushing
  /-- `assert(cpylen + 1 <= buflen)` -/
  | space
  /-- `assert(bufline->terminated)` -/
  | unterminated
  /-- A buffer attached to itself: the loop finds what it appends. -/
  | endless
  /-- A socket that took more than it was offered. -/
  | socket
  deriving DecidableEq, Repr

/-- What the loops call CR or LF. -/
def isEol (c : UInt8) : Bool := c = 0x0d ∨ c = 0x0a

namespace LineSt

/-- No line, and every head as `linebuf_newbuf` leaves it. -/
def init : LineSt where
  line _ := ⟨List.replicate bufDataSize 0, false, false, false, 0, 0⟩
  blocks := []
  head _ := ⟨[], 0, 0, 0, 0⟩
  buflineCount := 0

end LineSt

/-! ## Lines come and go -/

/-- `linebuf_new_line` -/
def linebufNewLine (A : Allocator) (bufhead : HeadId) (s : LineSt) : Nat × LineSt :=
  let bufline := A.pick s.blocks
  let hd := s.head bufhead
  (bufline, { s with
    blocks := bufline :: s.blocks
    line := update s.line bufline
      ⟨(s.line bufline).buf, false, false, false, 0, 1⟩
    head := update s.head bufhead
      { hd with
        list := hd.list ++ [bufline]
        alloclen := hd.alloclen + 1
        numlines := hd.numlines + 1 }
    buflineCount := s.buflineCount + 1 })

/-- `linebuf_done_line` on the first line of the list. -/
def linebufDoneLine (bufhead : HeadId) (s : LineSt) : Except LineStop LineSt :=
  let hd := s.head bufhead
  match hd.list with
  | [] => .ok s
  | bufline :: rest =>
      let ln := s.line bufline
      if hd.len - ln.len < 0 then .error .headLen
      else if ln.refcount - 1 < 0 then .error .refcount
      else
        let s := { s with
          head := update s.head bufhead
            { hd with
              list := rest
              alloclen := hd.alloclen - 1
              len := hd.len - ln.len
              numlines := hd.numlines - 1 }
          line := update s.line bufline { ln with refcount := ln.refcount - 1 } }
        if ln.refcount - 1 = 0 then
          if s.buflineCount - 1 < 0 then .error .lineCount
          else .ok { s with
            buflineCount := s.buflineCount - 1
            blocks := s.blocks.erase bufline }
        else .ok s

/-- The loop of `linebuf_donebuf`. -/
def linebufDonebufLoop (bufhead : HeadId) : Nat → LineSt → Except LineStop LineSt
  | 0, s => .ok s
  | fuel + 1, s =>
      if (s.head bufhead).list = [] then .ok s
      else (linebufDoneLine bufhead s).bind (linebufDonebufLoop bufhead fuel)

/-- `linebuf_donebuf`; every turn takes a line off the list. -/
def linebufDonebuf (bufhead : HeadId) (s : LineSt) : Except LineStop LineSt :=
  linebufDonebufLoop bufhead (s.head bufhead).list.length s

/-! ## Reading -/

/-- What a loop up to the first CR or LF goes over. -/
def upToEol (ch : List UInt8) : List UInt8 := ch.takeWhile fun c => !isEol c

/-- What a loop over the CR and LF there goes over. -/
def eolsAfter (ch : List UInt8) : List UInt8 :=
  (ch.drop (upToEol ch).length).takeWhile isEol

/-- `linebuf_skip_crlf` -/
def linebufSkipCrlf (ch : List UInt8) : Except LineStop Nat :=
  let skipped := (upToEol ch).length + (eolsAfter ch).length
  if 0 < skipped then .ok skipped else .error .skipped

/-- The loop that yanks the line end: from the byte before `n` down, at most
`cpylen` bytes. The value is what is left of `cpylen`, and the buffer. Where all
of a full buffer was CR and LF it looks at the byte in front of `buf`, which
belongs to a pointer of the line or block before and is taken to be neither. -/
def yankCrlf : Nat → Nat → List UInt8 → Nat × List UInt8
  -- `buf[-1]`
  | 0, cpylen, buf => (cpylen, buf)
  | _ + 1, 0, buf => (0, buf)
  | n + 1, cpylen + 1, buf =>
      if isEol (buf.getD n 0) then yankCrlf n cpylen (buf.set n 0)
      else (cpylen + 1, buf)

/-- Store a line, and add to the length of its head. -/
def LineSt.store (bufhead : HeadId) (bufline : Nat) (ln : BufLine) (added : Nat)
    (s : LineSt) : LineSt :=
  { s with
    line := update s.line bufline ln
    head := update s.head bufhead
      { s.head bufhead with len := (s.head bufhead).len + added } }

/-- `linebuf_copy_line` -/
def linebufCopyLine (bufhead : HeadId) (bufline : Nat) (data : List UInt8)
    (s : LineSt) : Except LineStop (Nat × LineSt) :=
  let ln := { s.line bufline with raw := false }
  if ¬ ln.len < bufDataSize then .error .full
  else if ln.terminated then .ok (0, s.store bufhead bufline ln 0)
  else
    (linebufSkipCrlf data).bind fun clen =>
      if clen > bufDataSize - ln.len - 1 then
        -- The line is full: what does not fit is consumed all the same.
        let buf := (blit ln.buf ln.len (data.take (bufDataSize - ln.len - 1))).set
          (bufDataSize - 1) 0
        let buf := (yankCrlf (bufDataSize - 1) clen buf).2
        .ok (clen, s.store bufhead bufline
          { ln with buf := buf, terminated := true, len := bufDataSize - 1 }
          (bufDataSize - 1))
      else
        let buf := (blit ln.buf ln.len (data.take clen)).set (ln.len + clen) 0
        if ¬ isEol (buf.getD (ln.len + clen - 1) 0) then
          .ok (clen, s.store bufhead bufline
            { ln with buf := buf, terminated := false, len := ln.len + clen } clen)
        else
          let (cpylen, buf) := yankCrlf (ln.len + clen) clen buf
          .ok (clen, s.store bufhead bufline
            { ln with buf := buf, terminated := true, len := ln.len + cpylen } cpylen)

/-- `linebuf_copy_raw` -/
def linebufCopyRaw (bufhead : HeadId) (bufline : Nat) (data : List UInt8)
    (after : UInt8) (s : LineSt) : Nat × LineSt :=
  let ln := s.line bufline
  if ln.len = bufDataSize ∨ ln.terminated then (0, s)
  else
    let remaining :=
      if data.length < bufDataSize - ln.len - 1 then data.length
      else bufDataSize - ln.len - 1
    let text := upToEol (data.take remaining)
    let ch := (data ++ [after]).getD text.length 0
    let terminated := isEol ch ∨ text.length ≥ bufDataSize - ln.len - 1
    let eols := if terminated then eolsAfter (data.take remaining) else []
    let copied := text ++ eols
    let buf := (blit ln.buf ln.len copied).set (ln.len + copied.length) 0
    (copied.length, s.store bufhead bufline
      { ln with
        buf := buf
        terminated := terminated
        raw := true
        len := ln.len + copied.length }
      copied.length)

/-- The copying that `linebuf_parse` chooses by `raw`. -/
def linebufCopy (bufhead : HeadId) (bufline : Nat) (data : List UInt8)
    (after : UInt8) (raw : Bool) (s : LineSt) : Except LineStop (Nat × LineSt) :=
  if raw then .ok (linebufCopyRaw bufhead bufline data after s)
  else linebufCopyLine bufhead bufline data s

/-- The loop of `linebuf_parse`; a new line takes at least one byte. -/
def linebufParseLoop (A : Allocator) (bufhead : HeadId) (after : UInt8) (raw : Bool) :
    Nat → List UInt8 → Nat → LineSt → Except LineStop (Nat × LineSt)
  | 0, _, linecnt, s => .ok (linecnt, s)
  | fuel + 1, data, linecnt, s =>
      if data = [] then .ok (linecnt, s)
      else
        let (bufline, s) := linebufNewLine A bufhead s
        (linebufCopy bufhead bufline data after raw s).bind fun (cpylen, s) =>
          linebufParseLoop A bufhead after raw fuel (data.drop cpylen) (linecnt + 1) s

/-- `linebuf_parse`. No copy takes more bytes than it is given, so the
assertion `len >= 0` after each is left out. -/
def linebufParse (A : Allocator) (bufhead : HeadId) (data : List UInt8) (after : UInt8)
    (raw : Bool) (s : LineSt) : Except LineStop (Nat × LineSt) :=
  match (s.head bufhead).list.getLast? with
  | none => linebufParseLoop A bufhead after raw data.length data 0 s
  | some bufline =>
      if (s.line bufline).flushing then .error .flushing
      else
        (linebufCopy bufhead bufline data after raw s).bind fun (cpylen, s) =>
          if cpylen = data.length then .ok (1, s)
          else linebufParseLoop A bufhead after raw data.length (data.drop cpylen) 1 s

/-- What `linebuf_get` copies out of a line. -/
def BufLine.text (ln : BufLine) (raw : Bool) : List UInt8 :=
  let text := ln.buf.take ln.len
  if ln.raw ∧ ¬ raw then (text.dropWhile isEol).rdropWhile isEol else text

/-- `linebuf_get`: the line copied, if there is one to copy, and its length is
the value returned. `part` is the parameter that lets an unterminated line
out. -/
def linebufGet (bufhead : HeadId) (buflen : Nat) (part raw : Bool) (s : LineSt) :
    Except LineStop (Option (List UInt8) × LineSt) :=
  match (s.head bufhead).list with
  | [] => .ok (none, s)
  | bufline :: _ =>
      let ln := s.line bufline
      if ¬ (part ∨ ln.terminated) then .ok (none, s)
      else if ¬ ln.len + 1 ≤ buflen then .error .space
      else (linebufDoneLine bufhead s).map fun s => (some (ln.text raw), s)

/-! ## Writing -/

/-- One turn of the loop of `linebuf_attach`. -/
def linebufAttachLine (bufhead : HeadId) (s : LineSt) (line : Nat) : LineSt :=
  let hd := s.head bufhead
  let ln := s.line line
  { s with
    head := update s.head bufhead
      { hd with
        list := hd.list ++ [line]
        alloclen := hd.alloclen + 1
        len := hd.len + ln.len
        numlines := hd.numlines + 1 }
    line := update s.line line { ln with refcount := ln.refcount + 1 } }

/-- `linebuf_attach` -/
def linebufAttach (bufhead new : HeadId) (s : LineSt) : Except LineStop LineSt :=
  if bufhead = new ∧ (s.head new).list ≠ [] then .error .endless
  else .ok ((s.head new).list.foldl (linebufAttachLine bufhead) s)

/-- What `linebuf_put` does once it has looked at the line before. -/
def linebufPutLine (A : Allocator) (bufhead : HeadId) (buf : List UInt8) (s : LineSt) :
    LineSt :=
  let (bufline, s) := linebufNewLine A bufhead s
  let ln := s.line bufline
  let buf := buf.take bufDataSize
  s.store bufhead bufline
    { ln with buf := blit ln.buf 0 buf, len := buf.length, terminated := true }
    buf.length

/-- `linebuf_put` -/
def linebufPut (A : Allocator) (bufhead : HeadId) (buf : List UInt8) (s : LineSt) :
    Except LineStop LineSt :=
  match (s.head bufhead).list.getLast? with
  | none => .ok (linebufPutLine A bufhead buf s)
  | some bufline =>
      if (s.line bufline).terminated then .ok (linebufPutLine A bufhead buf s)
      else .error .unterminated

/-- The bytes a line still has to write, from an offset on. -/
def BufLine.rest (ln : BufLine) (writeofs : Nat) : List UInt8 :=
  (ln.buf.take ln.len).drop writeofs

/-- The bytes of the lines of a list, in order. -/
def lineBytes (line : Nat → BufLine) (ls : List Nat) : List UInt8 :=
  ls.flatMap fun l => (line l).rest 0

/-- Set the offset up to which the first line is written. -/
def LineSt.setWriteofs (bufhead : HeadId) (writeofs : Nat) (s : LineSt) : LineSt :=
  { s with
    head := update s.head bufhead { s.head bufhead with writeofs := writeofs } }

/-- The first line is marked as being written, and the head starts it at 0,
unless it has the mark. The mark is the line's, the offset the head's. -/
def LineSt.startFlush (bufhead : HeadId) (bufline : Nat) (s : LineSt) : LineSt :=
  if (s.line bufline).flushing then s
  else
    { s with
      line := update s.line bufline { s.line bufline with flushing := true } }.setWriteofs
        bufhead 0

/-- `linebuf_flush` to a socket that answers `retval`; the bytes are those it
took. -/
def linebufFlush (bufhead : HeadId) (retval : Int) (s : LineSt) :
    Except LineStop (Int × List UInt8 × LineSt) :=
  match (s.head bufhead).list with
  | [] => .ok (-1, [], s)
  | bufline :: _ =>
      let ln := s.line bufline
      if ¬ ln.terminated then .ok (-1, [], s)
      else
        let s := s.startFlush bufhead bufline
        let writeofs := (s.head bufhead).writeofs
        let offered := ln.rest writeofs
        if retval ≤ 0 then .ok (retval, [], s)
        else if (offered.length : Int) < retval then .error .socket
        else
          let taken := offered.take retval.toNat
          if writeofs + retval.toNat = ln.len then
            let s := s.setWriteofs bufhead 0
            if (s.head bufhead).len < 0 then .error .headLen
            else (linebufDoneLine bufhead s).map fun s => (retval, taken, s)
          else
            .ok (retval, taken, s.setWriteofs bufhead (writeofs + retval.toNat))

/-! ## Any sequence of calls -/

inductive LineOp
  | parse (bufhead : HeadId) (data : List UInt8) (after : UInt8) (raw : Bool)
  | put (bufhead : HeadId) (buf : List UInt8)
  | attach (bufhead new : HeadId)
  | get (bufhead : HeadId) (buflen : Nat) (part raw : Bool)
  | flush (bufhead : HeadId) (retval : Int)
  | donebuf (bufhead : HeadId)

def LineSt.step (A : Allocator) (s : LineSt) : LineOp → Except LineStop LineSt
  | .parse bufhead data after raw =>
      (linebufParse A bufhead data after raw s).map Prod.snd
  | .put bufhead buf => linebufPut A bufhead buf s
  | .attach bufhead new => linebufAttach bufhead new s
  | .get bufhead buflen part raw => (linebufGet bufhead buflen part raw s).map Prod.snd
  | .flush bufhead retval => (linebufFlush bufhead retval s).map fun r => r.2.2
  | .donebuf bufhead => linebufDonebuf bufhead s

end TrIrcd
