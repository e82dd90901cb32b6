import TrIrcd.Lib.Bytes

/-!
# `src/zlink.c`: reading a compressed link

`inflate` belongs to zlib. `Inflate` is any function with the behaviour zlib
documents: a call reads some of the input it is shown, writes to the room it
is given, and does one or the other whenever it answers `Z_OK`. What a stream
still decompresses to, `expand`, is what such a call writes and then what the
stream decompresses to from there.

The callback gets a pointer into `unzipbuf` and may write to the bytes it was
given, as `server_dopacket` does.
-/

namespace TrIrcd

open TrIrcd.Lib

/-- `Z_OK` -/
def zOk : Int := 0

/-- What a call of `inflate` does to a stream. -/
structure Inflated (ζ : Type) where
  ret : Int
  state : ζ
  consumed : Nat
  out : List UInt8

/-- zlib's `inflate` on streams of type `ζ`: the call with the bytes at
`next_in` and the room `avail_out`. -/
structure Inflate (ζ : Type) where
  call : ζ → List UInt8 → Nat → Inflated ζ
  expand : ζ → List UInt8 → List UInt8
  consumed_le : ∀ z inp room, (call z inp room).consumed ≤ inp.length
  out_le : ∀ z inp room, (call z inp room).out.length ≤ room
  progress : ∀ z inp room, (call z inp room).ret = zOk →
    0 < (call z inp room).consumed + (call z inp room).out.length
  expand_eq : ∀ z inp room, (call z inp room).ret = zOk →
    expand z inp = (call z inp room).out ++
      expand (call z inp room).state (inp.drop (call z inp room).consumed)

/-- `parserfunc`: what it does to the world, and what it leaves in the bytes
it was given. -/
structure ParserFunc (σ : Type) where
  call : σ → List UInt8 → σ × List UInt8
  length_eq : ∀ s buf, (call s buf).2.length = buf.length

/-- `UNZIPBUFSIZE` -/
def unzipBufSize : Nat := 131072

/-- `z_stream`, the buffer its `next_out` points into, and the calls of
`parserfunc` so far. -/
structure ZStream (ζ σ : Type) where
  state : ζ
  nextIn : List UInt8
  availOut : Nat
  unzipbuf : List UInt8
  world : σ
  received : List (List UInt8)

variable {ζ σ : Type}

/-- One turn of the loop of `unzip_buffer` in which `inflate` answered `Z_OK`. -/
def ZStream.turn (parserfunc : ParserFunc σ) (zin : ZStream ζ σ) (r : Inflated ζ) :
    ZStream ζ σ :=
  let unzipbuf := blit zin.unzipbuf (unzipBufSize - zin.availOut) r.out
  let availOut := zin.availOut - r.out.length
  let piece := unzipbuf.take (unzipBufSize - availOut)
  let (world, left) := parserfunc.call zin.world piece
  { state := r.state
    nextIn := zin.nextIn.drop r.consumed
    availOut := availOut
    unzipbuf := blit unzipbuf 0 left
    world := world
    received := zin.received ++ [piece] }

/-- The loop of `unzip_buffer`: the value returned and the stream, or `none`
where the fuel runs out. -/
def unzipLoop (inflate : Inflate ζ) (parserfunc : ParserFunc σ) :
    Nat → ZStream ζ σ → Option (Int × ZStream ζ σ)
  | 0, _ => none
  | fuel + 1, zin =>
      if zin.nextIn = [] then some (0, zin)
      else
        let r := inflate.call zin.state zin.nextIn zin.availOut
        if r.ret = zOk then unzipLoop inflate parserfunc fuel (zin.turn parserfunc r)
        else some (-1, zin)

/-- The stream as `unzip_buffer` sets it up. -/
def ZStream.start (z : ζ) (buffer : List UInt8) (world : σ) : ZStream ζ σ where
  state := z
  nextIn := buffer
  availOut := unzipBufSize
  unzipbuf := List.replicate unzipBufSize 0
  world := world
  received := []

/-- `unzip_buffer` -/
def unzipBuffer (inflate : Inflate ζ) (parserfunc : ParserFunc σ) (z : ζ)
    (buffer : List UInt8) (world : σ) : Option (Int × ZStream ζ σ) :=
  unzipLoop inflate parserfunc (buffer.length + unzipBufSize + 1)
    (ZStream.start z buffer world)

end TrIrcd
