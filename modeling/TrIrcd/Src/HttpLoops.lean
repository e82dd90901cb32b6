import TrIrcd.Src.Httpd

/-!
# `src/httpd`: the loops, index by index

What the loops of `http_dopacket`, `parse_client_header` and `url_decode` read
and write, in order, with the indices they use. `memset` of the whole of an
array is left out, and so is what the header functions and the method do.

A read at or past the end of the packet answers 0 here. What the memory there
holds makes no difference: the test for the position comes after the read and
fails. `parse_client_header` counts down `length` from `llen`, and both loops
are given fuel; `none` is a loop that is still running.
-/

namespace TrIrcd

open TrIrcd.Lib

/-- The arrays of the loops. -/
inductive HttpArray
  | buffer | line | obuf
deriving DecidableEq, Repr

inductive HttpAccess
  | read (array : HttpArray) (i : Nat)
  | write (array : HttpArray) (i : Nat) (c : UInt8)
deriving DecidableEq, Repr

/-- How many bytes there are, for a packet of `length`. -/
def HttpArray.size (length : Nat) : HttpArray → Nat
  | .buffer => length
  | .line => httpBufSize
  | .obuf => httpBufSize

namespace HttpAccess

/-- The access stays inside its array. -/
def Inside (length : Nat) : HttpAccess → Prop
  | .read array i => i < array.size length
  | .write array i _ => i < array.size length

instance (length : Nat) : (a : HttpAccess) → Decidable (a.Inside length)
  | .read array i => inferInstanceAs (Decidable (i < array.size length))
  | .write array i _ => inferInstanceAs (Decidable (i < array.size length))

/-- The same access, when `buffer` starts `n` bytes earlier. -/
def shift (n : Nat) : HttpAccess → HttpAccess
  | .read .buffer i => .read .buffer (n + i)
  | .write .buffer i c => .write .buffer (n + i) c
  | a => a

/-- What is written, with its index. -/
def written : HttpAccess → Option (Nat × UInt8)
  | .read _ _ => none
  | .write _ i c => some (i, c)

end HttpAccess

/-- `url_decode(line, l, obuf)`: what it does from `line[len]` and `obuf[ol]`
on, where the list is what stands there up to `line[l]`. -/
def urlDecodeAccesses : List UInt8 → Nat → Nat → List HttpAccess
  | [], _, _ => []
  | c :: s, len, ol =>
      .read .line len ::
        if c = 0x2b then .write .obuf ol 0x20 :: urlDecodeAccesses s (len + 1) (ol + 1)
        else if c = 0x25 then
          .read .line (len + 1) ::
            match s with
            | [] => []
            | x :: s =>
                if isXDigit x then
                  .read .line (len + 2) ::
                    match s with
                    | [] => []
                    | y :: s =>
                        if isXDigit y then
                          .write .obuf ol (UInt8.ofNat (hexToInt x * 16 + hexToInt y)) ::
                            urlDecodeAccesses s (len + 3) (ol + 1)
                        else urlDecodeAccesses s (len + 3) ol
                else urlDecodeAccesses s (len + 2) ol
        else .write .obuf ol c :: urlDecodeAccesses s (len + 1) (ol + 1)

/-- What is in `outchr` after `url_decode(inchr, strlen(inchr), outchr)`. -/
def urlDecodeInto (outchr inchr : List UInt8) : List UInt8 :=
  ((urlDecodeAccesses (inchr ++ [0]) 0 0).filterMap HttpAccess.written).foldl
    (fun b p => b.set p.1 p.2) outchr

/-- What is written where the header is cut: at the colon, and at the space
behind it. -/
def cutAccesses (line : List UInt8) : List HttpAccess :=
  let c := line.idxOf 0x3a
  .write .line c 0 :: .read .line (c + 1) ::
    if line.getD (c + 1) 0 = 0x20 then [.write .line (c + 1) 0] else []

/-- The loop of `parse_client_header`; `line` holds the first `l` bytes of the
array. -/
def headerLoop (buffer : List UInt8) : Nat → Nat → List UInt8 → Int → Option (List HttpAccess)
  | 0, _, _, _ => none
  | fuel + 1, i, line, length =>
      if 0 < length then
        let c := buffer.getD i 0
        let l := line.length
        if !endsLine c && i < buffer.length then
          (headerLoop buffer fuel (i + 1) (line ++ [c]) length).map
            ([.read .buffer i, .write .line l c] ++ ·)
        else if line ≠ [] then
          if 0x3a ∈ line then
            (headerLoop buffer fuel i [] (length - l)).map
              ([.read .buffer i, .write .line l 0] ++ cutAccesses line ++ ·)
          else some ([.read .buffer i, .write .line l 0] ++ urlDecodeAccesses (line ++ [0]) 0 0)
        else (headerLoop buffer fuel (i + 1) line (length - 1)).map ([.read .buffer i] ++ ·)
      else some []

/-- `parse_client_header`, within `fuel` turns of its loop. -/
def headerAccesses (fuel : Nat) (buffer : List UInt8) : Option (List HttpAccess) :=
  headerLoop buffer fuel 0 [] buffer.length

/-- The loop of `http_dopacket`, with the line it copies. -/
def requestLoop (buffer : List UInt8) : Nat → List UInt8 → Option (List HttpAccess × List UInt8)
  | 0, _ => none
  | fuel + 1, line =>
      let i := line.length
      let c := buffer.getD i 0
      if (c ≠ 0x0d ∧ c ≠ 0x0a) ∧ i < buffer.length then
        (requestLoop buffer fuel (line ++ [c])).map fun (accesses, line) =>
          ([.read .buffer i, .write .line i c] ++ accesses, line)
      else some ([.read .buffer i, .write .line i 0], line)

/-- What `http_dopacket` makes of the request line. -/
inductive RequestTarget
  | nullPointer
  | refused (status : Nat)
  | accepted (func : HttpMethod) (url : List UInt8)
deriving DecidableEq

/-- `http_dopacket` between the request line and the call of
`parse_client_header`. -/
def requestTarget (hostHeader : Option (List UInt8)) (line : List UInt8) : RequestTarget :=
  match strtokens [0x20] line with
  | [] => .nullPointer
  | method :: tokens =>
      match lookupMethod method with
      | none => .refused 501
      | some func =>
          match tokens with
          | [] => .refused 400
          | url :: tokens =>
              if urlOfOther hostHeader url then .refused 400
              else if checkVersionString tokens.head? ≠ 1 then .refused 505
              else
                match urlPath url with
                | none => .nullPointer
                | some url => .accepted func url

/-- What it does then, where `rest` is what stands behind the request line. -/
def RequestTarget.run (env : HttpEnv) (stack : HttpStack) (rest : List UInt8) (cptr : HttpClient) :
    RequestTarget → Except HttpFault HttpClient
  | .nullPointer => .error .nullPointer
  | .refused status => .ok (cptr.refuse .httpDopacket status)
  | .accepted func url => parseClientHeader env stack rest url func { cptr with hurl := url }

/-- `http_dopacket`, within `fuel` turns of each loop. -/
def packetAccesses (fuel : Nat) (packet : List UInt8) (cptr : HttpClient) :
    Option (List HttpAccess) :=
  if cptr.httpflags &&& hflagsParseWait = 0 then
    (requestLoop packet fuel []).bind fun (accesses, line) =>
      match requestTarget cptr.hostHeader line with
      | .accepted _ _ =>
          (headerAccesses fuel (packet.drop line.length)).map fun more =>
            accesses ++ more.map (HttpAccess.shift line.length)
      | _ => some accesses
  else headerAccesses fuel packet

end TrIrcd
