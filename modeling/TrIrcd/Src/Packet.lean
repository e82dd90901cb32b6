import TrIrcd.Lib.Bytes
import TrIrcd.Src.Linebuf

/-!
# `src/server/s_packet.c`: what a server sends

`server_dopacket` cuts what was read from a link into lines and hands each to
`server_parse`. What is left of a line waits in the client's `restbuf` for
the next packet, which is put behind it, and then the lines are cut in
`restbuf` itself: `buffer` points either to the packet or into `restbuf`, and
the NUL that ends a line is written wherever it points.

The link is plain, so the branches for compressed and encrypted links are
left out, and with them the answers of `server_parse` that ask for one. The
byte counters, the calls of `comm_setselect` and the value returned, which is
0, are left out as well. `server_parse` is a parameter: any function of the
line with a state of its own.
-/

namespace TrIrcd

open TrIrcd.Lib

/-- `READBUF_SIZE` -/
def readbufSize : Nat := 16384

/-- The size of `restbuf`. -/
def restbufSize : Nat := 8 * readbufSize * 4

/-- `CLIENT_EXITED` -/
def clientExited : Int := -2

/-- The fields of a client that `server_dopacket` works on, and the state of
whatever `server_parse` does. -/
structure PacketClient (σ : Type) where
  restbuf : List UInt8
  /-- `HasRestbuf` -/
  hasRestbuf : Bool
  waitlen : Nat
  parsed : σ

/-- The memory `buffer` points into: a packet, or else `restbuf`. -/
abbrev PacketBuf := Option (List UInt8)

section Packet

variable {σ : Type}

/-- `restbuf_create`; `MyMalloc` clears what it allocates, and the size is
taken for `sizeof(char *) == 8`. -/
def restbufCreate (cptr : PacketClient σ) : PacketClient σ :=
  if cptr.hasRestbuf then cptr
  else
    { cptr with
      restbuf := List.replicate (8 * readbufSize * 4) 0
      hasRestbuf := true }

def PacketClient.mem (cptr : PacketClient σ) (buffer : PacketBuf) : List UInt8 :=
  buffer.getD cptr.restbuf

/-- `buffer[i] = '\0'` -/
def PacketClient.terminate (cptr : PacketClient σ) (buffer : PacketBuf) (i : Nat) :
    PacketClient σ × PacketBuf :=
  match buffer with
  | some mem => (cptr, some (mem.set i 0))
  | none => ({ cptr with restbuf := cptr.restbuf.set i 0 }, none)

/-- The inner loop: `tmplen` and `length` after it, and `broken`. -/
def findEol (mem : List UInt8) (buffer : Nat) : Nat → Nat → Nat × Nat × Bool
  | 0, tmplen => (tmplen, 0, true)
  | length + 1, tmplen =>
      if isEol (mem.getD (buffer + tmplen) 0) then (tmplen, length, false)
      else findEol mem buffer length (tmplen + 1)

variable (M : Memcpy)

/-- The remainder is kept, wherever it is: `memcpy(cptr->restbuf, buffer, cptr->waitlen)`. -/
def keepRest (cptr : PacketClient σ) (buf : PacketBuf) (buffer tmplen : Nat) :
    Option (PacketClient σ) :=
  let cptr := { restbufCreate cptr with waitlen := tmplen }
  match buf with
  | some mem =>
      some { cptr with restbuf := blit cptr.restbuf 0 ((mem.drop buffer).take tmplen) }
  | none =>
      (M.toFront buffer tmplen cptr.restbuf).map fun restbuf => { cptr with restbuf := restbuf }

variable (serverParse : σ → List UInt8 → σ × Int)

/-- The outer loop; a turn takes at least one byte. -/
def dopacketLoop : Nat → PacketClient σ → PacketBuf → Nat → Nat → Option (PacketClient σ)
  | 0, cptr, _, _, _ => some cptr
  | fuel + 1, cptr, buf, buffer, length =>
      if length = 0 then some cptr
      else
        let cptr := { cptr with waitlen := 0 }
        let (tmplen, length, broken) := findEol (cptr.mem buf) buffer length 0
        if 0 < tmplen ∧ ¬ broken then
          let (cptr, buf) := cptr.terminate buf (buffer + tmplen)
          let (parsed, parseval) :=
            serverParse cptr.parsed (((cptr.mem buf).drop buffer).take tmplen)
          let cptr := { cptr with parsed := parsed }
          if parseval = clientExited then some cptr
          else dopacketLoop fuel cptr buf (buffer + tmplen + 1) length
        else if ¬ broken then dopacketLoop fuel cptr buf (buffer + tmplen + 1) length
        else
          (keepRest M cptr buf buffer tmplen).bind fun cptr =>
            dopacketLoop fuel cptr buf buffer length

/-- `server_dopacket` -/
def serverDopacket (cptr : PacketClient σ) (packet : List UInt8) :
    Option (PacketClient σ) :=
  if 0 < cptr.waitlen then
    let restbuf := blit cptr.restbuf cptr.waitlen packet
    let length := packet.length + cptr.waitlen
    let restbuf := blit restbuf length (List.replicate (readbufSize * 4 - length) 0)
    dopacketLoop M serverParse length { cptr with restbuf := restbuf } none 0 length
  else dopacketLoop M serverParse packet.length cptr (some packet) 0 packet.length

end Packet

/-!
## `src/server/s_packet.c`: the commands of a user

What was read from a user waits in its `recvQ`, cut into lines.
`parse_client_queued` takes the terminated lines out and hands each to
`client_dopacket`, until `linebuf_get` returns 0, the user has sent more than
it may, or it is gone. The call of `comm_setselect` behind the loop is left
out, and so is the copy in `readBuf`, which is longer than any line.
-/

/-- What `client_dopacket` leaves behind. -/
structure Dopacket (σ : Type) where
  client_p : σ
  /-- Something could not be sent, and `dead_link_on_write` has emptied
  `recvQ`. -/
  dead : Bool
  ret : Int

/-- The client: the fields that the loop reads, and `client_dopacket`. -/
structure QueueEnv (σ : Type) where
  isAnOper : σ → Bool
  sentParsed : σ → Int
  allowRead : σ → Int
  clientDopacket : σ → List UInt8 → Dopacket σ

/-- A client at work, its `recvQ`, and the lines `client_dopacket` was called
with. -/
structure QueueSt (σ : Type) where
  client_p : σ
  lines : LineSt
  calls : List (List UInt8)

section Queue

variable {σ : Type} (E : QueueEnv σ) (recvQ : HeadId)

/-- The loop of `parse_client_queued`; a turn takes a line off the list. -/
def parseClientQueuedLoop : Nat → QueueSt σ → Except LineStop (QueueSt σ)
  | 0, s => .ok s
  | fuel + 1, s =>
      if ¬ E.isAnOper s.client_p ∧ E.sentParsed s.client_p > E.allowRead s.client_p then .ok s
      else
        (linebufGet recvQ readbufSize false false s.lines).bind fun r =>
          let s := { s with lines := r.2 }
          match r.1 with
          | none => .ok s
          | some line =>
              let dolen := line.length
              if dolen = 0 then .ok s
              else
                let d := E.clientDopacket s.client_p line
                let s := { s with client_p := d.client_p, calls := s.calls ++ [line] }
                (if d.dead then linebufDonebuf recvQ s.lines else .ok s.lines).bind
                  fun lines =>
                    let s := { s with lines := lines }
                    if d.ret = clientExited then .ok s else parseClientQueuedLoop fuel s

/-- `parse_client_queued` -/
def parseClientQueued (client_p : σ) (lines : LineSt) : Except LineStop (QueueSt σ) :=
  parseClientQueuedLoop E recvQ ((lines.head recvQ).list.length + 1)
    { client_p := client_p, lines := lines, calls := [] }

end Queue

/-- What is done with a `recvQ`. -/
inductive RecvOp
  | parse (data : List UInt8)
  | get
  | donebuf

/-- Nothing in a `recvQ` is raw as long as its client is no server. -/
def RecvOp.lineOp (recvQ : HeadId) : RecvOp → LineOp
  | .parse data => .parse recvQ data 0 false
  | .get => .get recvQ readbufSize false false
  | .donebuf => .donebuf recvQ

end TrIrcd
