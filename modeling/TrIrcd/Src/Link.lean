import TrIrcd.Src.Packet
import Mathlib.Logic.Function.Basic

/-!
# `server/s_packet.c` and `src/rc4.c`: links that become encrypted

`server_parse` may answer that from the next byte on the link is encrypted or
compressed. `server_dopacket` then decrypts what is left of the packet where it
stands, and hands it to `unzip_buffer` if the link is compressed. From the next
packet on `binary_dopacket` decrypts.

The client is that of a plain link, and what `server_parse` works on comes with
the state of the cipher. The flags are whatever `server_parse` has made of
them. `memcpy` and `memset` that leave `restbuf` are outcomes of their own, as is
a `memcpy` between two places of it that overlap, if that is undefined: the
size of the `memset` is computed in `size_t`. What `unzip_buffer` does with the
rest of a packet is a call of its own, as is each of its calls of
`server_dopacket`; a link whose packets all go there is not one of these.
-/

namespace TrIrcd

open Function (update)
open TrIrcd.Lib

/-- `struct rc4_state` -/
structure Rc4State where
  mstate : UInt8 → UInt8
  x : UInt8
  y : UInt8

/-- `rc4_process_stream`; the bytes wrap where C masks them. -/
def rc4ProcessStream : Rc4State → List UInt8 → Rc4State × List UInt8
  | rc4, [] => (rc4, [])
  | rc4, c :: istring =>
      let x := rc4.x + 1
      let a := rc4.mstate x
      let y := rc4.y + a
      let b := rc4.mstate y
      let s := update (update rc4.mstate x b) y a
      let (rc4, ostring) := rc4ProcessStream ⟨s, x, y⟩ istring
      (rc4, (c ^^^ s (a + b)) :: ostring)

/-- `RC4_NEXT_BUFFER` -/
def rc4NextBuffer : Int := -4

/-- `ZIP_NEXT_BUFFER` -/
def zipNextBuffer : Int := -5

/-- What `server_parse` works on, and `rc4_in`. -/
structure LinkWorld (σ : Type) where
  parser : σ
  rc4In : Rc4State

abbrev LinkClient (σ : Type) := PacketClient (LinkWorld σ)

/-- `server_parse`, and the flags it leaves. -/
structure LinkParser (σ : Type) where
  serverParse : σ → List UInt8 → σ × Int
  isRc4In : σ → Bool
  zipIn : σ → Bool

inductive LinkFault
  | memcpy
  | memset
  /-- A `memcpy` between two places that overlap. -/
  | overlap
deriving DecidableEq, Repr

namespace Link

variable {σ : Type}

/-- `(READBUF_SIZE * 4) - length` -/
def clearSize (length : Nat) : UInt64 := UInt64.ofNat (readbufSize * 4) - UInt64.ofNat length

/-- `rc4_process_stream(cptr->serv->rc4_in, buffer, length)` -/
def decryptRest (cptr : LinkClient σ) (buf : PacketBuf) (buffer length : Nat) :
    LinkClient σ × PacketBuf :=
  let (rc4In, text) :=
    rc4ProcessStream cptr.parsed.rc4In (((cptr.mem buf).drop buffer).take length)
  let cptr := { cptr with parsed := { cptr.parsed with rc4In := rc4In } }
  match buf with
  | some mem => (cptr, some (blit mem buffer text))
  | none => ({ cptr with restbuf := blit cptr.restbuf buffer text }, none)

variable (M : Memcpy) (P : LinkParser σ)

/-- The outer loop of `server_dopacket`; a turn takes at least one byte. -/
def dopacketLoop :
    Nat → LinkClient σ → PacketBuf → Nat → Nat → Except LinkFault (LinkClient σ)
  | 0, cptr, _, _, _ => .ok cptr
  | fuel + 1, cptr, buf, buffer, length =>
      if length = 0 then .ok cptr
      else
        let cptr := { cptr with waitlen := 0 }
        let (tmplen, length, broken) := findEol (cptr.mem buf) buffer length 0
        if 0 < tmplen ∧ ¬ broken then
          let (cptr, buf) := cptr.terminate buf (buffer + tmplen)
          let (parser, parseval) :=
            P.serverParse cptr.parsed.parser (((cptr.mem buf).drop buffer).take tmplen)
          let cptr := { cptr with parsed := { cptr.parsed with parser := parser } }
          let buffer := buffer + tmplen + 1
          if parseval = clientExited then .ok cptr
          -- The rest is for `unzip_buffer`.
          else if parseval = zipNextBuffer ∧ P.zipIn parser then .ok cptr
          else if parseval = rc4NextBuffer ∧ length ≠ 0 then
            let (cptr, buf) := decryptRest cptr buf buffer length
            dopacketLoop fuel cptr buf buffer length
          else dopacketLoop fuel cptr buf buffer length
        else if ¬ broken then dopacketLoop fuel cptr buf (buffer + tmplen + 1) length
        else if restbufSize < tmplen then .error .memcpy
        else
          match keepRest M cptr buf buffer tmplen with
          | none => .error .overlap
          | some cptr => dopacketLoop fuel cptr buf buffer length

/-- `server_dopacket` -/
def serverDopacket (cptr : LinkClient σ) (packet : List UInt8) :
    Except LinkFault (LinkClient σ) :=
  if 0 < cptr.waitlen then
    if restbufSize < cptr.waitlen + packet.length then .error .memcpy
    else
      let restbuf := blit cptr.restbuf cptr.waitlen packet
      let length := packet.length + cptr.waitlen
      if restbufSize < length + (clearSize length).toNat then .error .memset
      else
        let restbuf := blit restbuf length (List.replicate (clearSize length).toNat 0)
        dopacketLoop M P length { cptr with restbuf := restbuf } none 0 length
  else dopacketLoop M P packet.length cptr (some packet) 0 packet.length

/-- `binary_dopacket` -/
def binaryDopacket (cptr : LinkClient σ) (packet : List UInt8) :
    Except LinkFault (LinkClient σ) :=
  if P.isRc4In cptr.parsed.parser then
    let (rc4In, packet) := rc4ProcessStream cptr.parsed.rc4In packet
    serverDopacket M P { cptr with parsed := { cptr.parsed with rc4In := rc4In } } packet
  else serverDopacket M P cptr packet

end Link

/-!
## `src/rc4.c`: the two ends of an encrypted link

`rc4_initstate` makes a state from a key, `rc4_process_stream_to_buf` encrypts
what is sent, and `rc4_process_stream`, which is with the links, decrypts what
is read. The loop of the former works on double words that it masks, and keeps
them as bytes between two calls.

A byte of the key that is not there has no value.
-/

/-- What the second loop of `rc4_initstate` works on. -/
structure Rc4Init where
  mstate : UInt8 → UInt8
  idx1 : UInt8
  idx2 : UInt8

/-- One turn of this loop. -/
def rc4InitTurn (key : List UInt8) (st : Rc4Init) (i : Nat) : Option Rc4Init := do
  let k ← key[st.idx1.toNat]?
  let idx1 := st.idx1 + 1
  let i := UInt8.ofNat i
  let idx2 := k + st.mstate i + st.idx2
  let tmp := st.mstate i
  let mstate := update st.mstate i (st.mstate idx2)
  let mstate := update mstate idx2 tmp
  some ⟨mstate, if idx1.toNat ≥ key.length then 0 else idx1, idx2⟩

/-- `rc4_initstate`; the first loop puts each byte at its own place. -/
def rc4Initstate (key : List UInt8) : Option Rc4State :=
  ((List.range 256).foldlM (rc4InitTurn key) ⟨id, 0, 0⟩).map fun st => ⟨st.mstate, 0, 0⟩

/-- The loop of `rc4_process_stream_to_buf`. -/
def rc4ToBufLoop : (UInt8 → UInt8) → UInt32 → UInt32 → List UInt8 →
    (UInt8 → UInt8) × UInt32 × UInt32 × List UInt8
  | s, x, y, [] => (s, x, y, [])
  | s, x, y, c :: istring =>
      let x := (x + 1) &&& 0xff
      let a := s x.toUInt8
      let y := (y + a.toUInt32) &&& 0xff
      let b := s y.toUInt8
      let s := update s x.toUInt8 b
      let s := update s y.toUInt8 a
      let o := c ^^^ s ((a.toUInt32 + b.toUInt32) &&& 0xff).toUInt8
      let (s', x', y', ostring) := rc4ToBufLoop s x y istring
      (s', x', y', o :: ostring)

/-- `rc4_process_stream_to_buf` -/
def rc4ProcessStreamToBuf (rc4 : Rc4State) (istring : List UInt8) : Rc4State × List UInt8 :=
  let (s, x, y, ostring) := rc4ToBufLoop rc4.mstate rc4.x.toUInt32 rc4.y.toUInt32 istring
  (⟨s, x.toUInt8, y.toUInt8⟩, ostring)

/-- A stream that comes in chunks, each processed where the one before left off. -/
def rc4Chunks (process : Rc4State → List UInt8 → Rc4State × List UInt8) :
    Rc4State → List (List UInt8) → Rc4State × List UInt8
  | rc4, [] => (rc4, [])
  | rc4, chunk :: chunks =>
      let (rc4, out) := process rc4 chunk
      let (rc4, rest) := rc4Chunks process rc4 chunks
      (rc4, out ++ rest)

/-!
## `src/server/s_packet.c`: the receive statistics

`server_dopacket` and `client_dopacket` count the bytes they are handed before
they look at them, for the client and for `me`: `receiveK` in whole kilobytes,
`receiveB` in what is left of the next one. `receiveB` is an `unsigned short`,
and it is one while the bytes are added. The messages and kilobytes are
`long`s, counted here without a bound.

The clients of the server work on one world, which `server_parse` and
`user_parse` change. What a link carries over, and the state of its cipher,
are the client's own.
-/

/-- The counters `process_bytecount` keeps for a client. -/
structure ByteCount where
  receiveM : Nat
  receiveK : Nat
  receiveB : UInt16
deriving DecidableEq, Repr

/-- `process_bytecount`, the half that is about one of the two. -/
def ByteCount.process (n : ByteCount) (length : Nat) : ByteCount :=
  let n := { n with receiveM := n.receiveM + 1, receiveB := n.receiveB + UInt16.ofNat length }
  if 1023 < n.receiveB then
    { n with
      receiveK := n.receiveK + (n.receiveB >>> 10).toNat
      receiveB := n.receiveB &&& 0x03ff }
  else n

/-- The fields of a client that receiving works on. -/
structure CountedClient where
  restbuf : List UInt8
  /-- `HasRestbuf` -/
  hasRestbuf : Bool
  waitlen : Nat
  rc4In : Rc4State
  count : ByteCount

/-- The server: its clients, `me`, and what the parsers work on. -/
structure CountSt (σ : Type) where
  client : Nat → CountedClient
  me : ByteCount
  parser : σ

/-- The parsers, for each client, and `memcpy`. -/
structure CountEnv (σ : Type) where
  memcpy : Memcpy
  link : Nat → LinkParser σ
  userParse : Nat → σ → List UInt8 → σ × Int

section Bytecount

variable {σ : Type}

/-- `process_bytecount` -/
def processBytecount (s : CountSt σ) (cptr length : Nat) : CountSt σ :=
  let client := s.client cptr
  { s with
    client := update s.client cptr { client with count := client.count.process length }
    me := s.me.process length }

/-- The client as `server_dopacket` has it. -/
def CountSt.toLink (s : CountSt σ) (cptr : Nat) : LinkClient σ :=
  let client := s.client cptr
  { restbuf := client.restbuf, hasRestbuf := client.hasRestbuf, waitlen := client.waitlen
    parsed := ⟨s.parser, client.rc4In⟩ }

/-- What `server_dopacket` leaves of it. -/
def CountSt.ofLink (s : CountSt σ) (cptr : Nat) (link : LinkClient σ) : CountSt σ :=
  { s with
    client := update s.client cptr
      { restbuf := link.restbuf, hasRestbuf := link.hasRestbuf, waitlen := link.waitlen
        rc4In := link.parsed.rc4In, count := (s.client cptr).count }
    parser := link.parsed.parser }

variable (E : CountEnv σ)

/-- `server_dopacket`: what waits is counted with the packet. -/
def serverDopacketCounted (s : CountSt σ) (cptr : Nat) (buffer : List UInt8) :
    Except LinkFault (CountSt σ) :=
  let s := processBytecount s cptr (buffer.length + (s.client cptr).waitlen)
  (Link.serverDopacket E.memcpy (E.link cptr) (s.toLink cptr) buffer).map fun link =>
    s.ofLink cptr link

/-- `client_dopacket`, and what it returns. -/
def clientDopacketCounted (s : CountSt σ) (cptr : Nat) (buffer : List UInt8) :
    CountSt σ × Int :=
  let s := processBytecount s cptr buffer.length
  let (parser, ret) := E.userParse cptr s.parser buffer
  ({ s with parser := parser }, if ret < 0 then -2 else 0)

/-- A call for one of the clients. -/
inductive ReceiveOp
  | server (cptr : Nat) (buffer : List UInt8)
  | client (cptr : Nat) (buffer : List UInt8)
deriving DecidableEq, Repr

def receiveStep (s : CountSt σ) : ReceiveOp → Except LinkFault (CountSt σ)
  | .server cptr buffer => serverDopacketCounted E s cptr buffer
  | .client cptr buffer => .ok (clientDopacketCounted E s cptr buffer).1

end Bytecount

end TrIrcd
