import TrIrcd.Src.Linebuf
import TrIrcd.Src.Link
import TrIrcd.Src.Zlink

/-!
# `src/send.c`, and `zip_buffer` of `src/zlink.c`: a message on its way out

`send_message` ends the message with a line end, compresses and encrypts it as
the link asks for, and queues what came out of that as one line.

`deflate` belongs to zlib. It is any function on streams that keeps to the room
it is shown; how much of the message it writes now, and how much later, is its
own affair.

The link is what C calls `to`. The notices about a link that goes down, and
the statistics, are left out; so is what `send_queued` does to a link that was
bursting, which is to call `send_message` as the last thing it does: for the
link that is the next message. A message that is nothing but line ends has no
last byte to find.
-/

namespace TrIrcd

open Function (update)
open TrIrcd.Lib

/-- What a call of `deflate` does to a stream. -/
structure Deflated (ζ : Type) where
  ret : Int
  state : ζ
  out : List UInt8

/-- zlib's `deflate` on streams of type `ζ`: the call with the bytes at
`next_in` and the room `avail_out`. -/
structure Deflate (ζ : Type) where
  call : ζ → List UInt8 → Nat → Deflated ζ
  out_le : ∀ z inp room, (call z inp room).out.length ≤ room

/-- `ZIPBUFSIZE` -/
def zipBufSize : Nat := 8192 * 2

/-- `zip_buffer`: the stream, and the block unless the length is -1. -/
def zipBuffer {ζ : Type} (deflate : Deflate ζ) (zout : ζ) (buffer : List UInt8) :
    ζ × Option (List UInt8) :=
  let r := deflate.call zout buffer zipBufSize
  (r.state, if r.ret = zOk then some r.out else none)

/-- What `aClient` says about a link that is written to. -/
structure OutLink (ζ : Type) where
  cptr : Nat
  fd : Int
  isAnon : Bool
  isDead : Bool
  isForeigner : Bool
  isServer : Bool
  isNegoServer : Bool
  zipOut : Bool
  isRc4Out : Bool
  /-- `FLAGS_SENDQEX` -/
  sendqex : Bool
  sendqlen : Int
  zout : ζ
  rc4Out : Rc4State
  bufs : LineSt

inductive OutStop
  /-- A function of `linebuf.c` stopped. -/
  | line (stop : LineStop)
  /-- The chopping of line ends ran off the start of the message. -/
  | chop
  deriving DecidableEq, Repr

/-- What a socket answers to `send`, and whether `ignoreErrno` holds of what it
leaves in `errno`. -/
structure SocketAnswer where
  retval : Int
  ignorable : Bool

def transtab : List UInt8 :=
  ("..A.....................EHI.O.YW.ABGDEZH0IKLMN3OPR STYFXCWIY" ++
    "aehi.abgdezh8iklmn3oprsstufxywiuouw.").toList.map fun c => UInt8.ofNat c.toNat

/-- The loop for foreigners, up to the first NUL. -/
def translate (msg : List UInt8) : List UInt8 :=
  (cstr msg).map (fun c => if 159 < c then transtab.getD (c - 160).toNat 0 else c) ++
    msg.drop (cstr msg).length

/-- The line end, or the NUL, that is chopped off a message. -/
def isChopped (c : UInt8) : Bool := isEol c ∨ c = 0

/-- The loop of `send_message` over line ends, from `msg[len]` down: the `len`
it stops at, or `none` if it reads `msg[-1]`. `msg` is all the memory from the
message on. -/
def chopLineEnds (msg : List UInt8) : Nat → Option Nat
  | 0 => if isChopped (msg.getD 0 0) then none else some 0
  | len + 1 =>
      if isChopped (msg.getD (len + 1) 0) then chopLineEnds msg len else some (len + 1)

/-- The line end that `send_message` writes behind `msg[len]`: the buffer, and
the `len` it goes on with. -/
def appendLineEnd (server : Bool) (msg : Nat → UInt8) (len : Nat) : (Nat → UInt8) × Nat :=
  if server then
    let len := if len > 510 then 510 else len
    (update (update msg (len + 1) 0x0a) (len + 2) 0, len + 2)
  else
    let len := if len > 509 then 509 else len
    (update (update (update msg (len + 1) 0x0d) (len + 2) 0x0a) (len + 3) 0, len + 3)

/-- `linebuf_newbuf` -/
def linebufNewbuf (bufhead : HeadId) (s : LineSt) : LineSt :=
  { s with head := update s.head bufhead ⟨[], 0, 0, 0, 0⟩ }

/-- `linebuf_flush` finds a line to write; where not, it sets `EWOULDBLOCK`. -/
def LineSt.canFlush (s : LineSt) (bufhead : HeadId) : Bool :=
  match (s.head bufhead).list with
  | [] => false
  | bufline :: _ => (s.line bufline).terminated

/-- The loop of `send_queued`: the last `rlen`, and whether `ignoreErrno` holds
then. A socket that has no answer left would block. -/
def sendQueuedLoop (bufhead : HeadId) :
    List SocketAnswer → LineSt → Except LineStop (Int × Bool × LineSt)
  | [], s => .ok (-1, true, s)
  | a :: answers, s =>
      (linebufFlush bufhead a.retval s).bind fun (rlen, _, s') =>
        if 0 < rlen then sendQueuedLoop bufhead answers s'
        else .ok (rlen, a.ignorable ∨ ¬ s.canFlush bufhead, s')

namespace OutLink

variable {ζ : Type}

def sendQ (link : OutLink ζ) : BufHead := link.bufs.head (.sendQ link.cptr)

/-- The bytes of the lines at the end of the queue that were not there before. -/
def gained (link link' : OutLink ζ) : List UInt8 :=
  lineBytes link'.bufs.line (link'.sendQ.list.drop link.sendQ.list.length)

/-- A function of `linebuf.c` on the buffers of the link. -/
def withBufs (link : OutLink ζ) (x : Except LineStop LineSt) : Except OutStop (OutLink ζ) :=
  match x with
  | .ok s => .ok { link with bufs := s }
  | .error e => .error (.line e)

/-- `dead_link_on_write` -/
def deadLinkOnWrite (link : OutLink ζ) : Except OutStop (OutLink ζ) :=
  { link with isDead := true }.withBufs
    ((linebufDonebuf (.recvQ link.cptr) link.bufs).bind (linebufDonebuf (.sendQ link.cptr)))

/-- `send_queued` -/
def sendQueued (answers : List SocketAnswer) (link : OutLink ζ) :
    Except OutStop (OutLink ζ) :=
  if link.isDead then .ok link
  else if link.sendQ.len > 0 then
    match sendQueuedLoop (.sendQ link.cptr) answers link.bufs with
    | .error e => .error (.line e)
    | .ok (rlen, ignorable, s) =>
        let link := { link with bufs := s }
        if rlen < 0 ∧ ignorable then .ok link else link.deadLinkOnWrite
  else .ok link

/-- The message with its line end; `none` if there is nothing else in it. -/
def finishLine (link : OutLink ζ) (msg : List UInt8) : Option (List UInt8) :=
  let msg := if link.isForeigner then translate msg else msg
  let text := msg.rdropWhile isChopped
  if text = [] then none
  else if link.isServer ∨ link.isNegoServer then some (text.take 511 ++ [0x0a])
  else some (text.take 510 ++ [0x0d, 0x0a])

/-- The block of a message, compressed and encrypted as the link asks for. -/
def encode (deflate : Deflate ζ) (link : OutLink ζ) (line : List UInt8) :
    OutLink ζ × Option (List UInt8) :=
  let (link, block) :=
    if link.zipOut then
      let (zout, block) := zipBuffer deflate link.zout line
      ({ link with zout := zout }, block)
    else (link, some line)
  match block with
  | none => (link, none)
  | some block =>
      if link.isRc4Out ∧ block ≠ [] then
        let (rc4Out, block) := rc4ProcessStream link.rc4Out block
        ({ link with rc4Out := rc4Out }, some block)
      else (link, some block)

/-- From `linebuf_newbuf` to `linebuf_donebuf`. -/
def enqueue (A : Allocator) (link : OutLink ζ) (block : List UInt8) :
    Except OutStop (OutLink ζ) :=
  link.withBufs (((linebufPut A (.linebuf 0) block (linebufNewbuf (.linebuf 0) link.bufs)).bind
    (linebufAttach (.sendQ link.cptr) (.linebuf 0))).bind (linebufDonebuf (.linebuf 0)))

/-- `send_message` up to the call of `send_queued`: the link, the block that
`zip_buffer` returned, encrypted, and whether `send_queued` is called. -/
def queueMessage (A : Allocator) (deflate : Deflate ζ) (link : OutLink ζ)
    (msg : List UInt8) : Except OutStop (OutLink ζ × List UInt8 × Bool) :=
  if link.isAnon ∨ link.fd < 0 ∨ link.isDead then .ok (link, [], false)
  else
    match link.finishLine msg with
    | none => .error .chop
    | some line =>
        match link.encode deflate line with
        | (link, none) => link.deadLinkOnWrite.map fun link => (link, [], false)
        | (link, some block) =>
            if block = [] then .ok (link, [], false)
            else if link.sendQ.len > link.sendqlen then
              { link with sendqex := true }.deadLinkOnWrite.map fun link => (link, block, false)
            else (link.enqueue A block).map fun link => (link, block, true)

/-- `send_message` -/
def sendMessage (A : Allocator) (deflate : Deflate ζ) (link : OutLink ζ) (msg : List UInt8)
    (answers : List SocketAnswer) : Except OutStop (OutLink ζ) :=
  (link.queueMessage A deflate msg).bind fun (link, _, queued) =>
    if queued then link.sendQueued answers else .ok link

end OutLink

end TrIrcd
