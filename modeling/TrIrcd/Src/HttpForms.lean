import TrIrcd.Src.Httpd

/-!
# `src/httpd/httpd_post.c`: forms

Every form of `http_post` starts the same way: `decoded_data` is cut at each
`&`, and each element at its first `=`. The body of a packet comes there by
way of `parse_client_header`, which has decoded it once already.

`listener.htc` reads port numbers from its field `range` into
`listener_ports`, where -1 stands for the `..` of a range, and then adds a
listener for each entry up to and including `listener_ports[port_count]`. The
model follows `t` by its digits and `listener_ports` by the entries written; an
access that would be outside of an array is a fault, and `running` is a loop
that has not come to its end.
-/

namespace TrIrcd

open TrIrcd.Lib

/-- The fields that `http_post` finds, with `form` in `decoded_data` before;
without data it waits for the next packet. -/
def postedFields (form : List UInt8) (data : Option (List UInt8)) :
    Except HttpFault (List FormField) :=
  let data := data.getD []
  if data = [] then .ok [] else formFields (decodeInto form data)

/-- The fields that come out of a packet. -/
def packetFields (env : HttpEnv) (stack : HttpStack) (buffer : List UInt8) (cptr : HttpClient) :
    Except HttpFault (List FormField) :=
  (parseLoop env stack buffer 0 [] cptr).bind fun (_, data) => postedFields stack.form data

/-! ## `listener.htc` -/

inductive PortFault
  | overflow | pastEnd | nullPointer | running
deriving DecidableEq, Repr

/-- `listener_ports`, and `port_count`. -/
structure Ports where
  count : Nat
  entry : Nat → Int

/-- The size of `listener_ports`. -/
def maxPorts : Nat := 256

/-- `atoi(t)`, for which one byte of `t` has to be left as NUL. -/
def portNumber (t : List UInt8) : Except PortFault Int :=
  if t.length < 5 then .ok (atoi t) else .error .overflow

/-- The entries after `if (t[0] != '\0')` and the store behind it. -/
def storePort (t : List UInt8) (ports : List Int) : Except PortFault (List Int) :=
  if t = [] then .ok ports
  else (portNumber t).bind fun port =>
    if ports.length < maxPorts then .ok (ports ++ [port]) else .error .overflow

/-- The loop over `range`; `t` holds the digits of a number, `ports` what is
stored. What is left in `t` at the end is stored at `port_count`, which stays
as it is. -/
def portLoop : Nat → List UInt8 → List UInt8 → List Int → Except PortFault Ports
  | 0, _, _, _ => .error .running
  | _ + 1, [], t, ports =>
      (storePort t ports).map fun entries => { count := ports.length, entry := (entries.getD · 0) }
  | fuel + 1, c :: range, t, ports =>
      if maxPorts ≤ ports.length then
        (storePort t ports).map fun entries => { count := ports.length, entry := (entries.getD · 0) }
      else if isDigit c then
        if t.length < 5 then portLoop fuel range (t ++ [c]) ports else .error .overflow
      else
        (storePort t ports).bind fun ports =>
          if c = 0x20 || c = 0x2c then portLoop fuel range [] ports
          else if c = 0x2e then
            match range with
            | [] => .error .pastEnd
            | _ :: range =>
                if ports.length < maxPorts then portLoop fuel range [] (ports ++ [-1])
                else .error .overflow
          else portLoop fuel (c :: range) [] ports

/-- The ports from `t` to `last`. -/
def portRange (t last : Int) : List Int :=
  (List.range (last + 1 - t).toNat).map fun k : Nat => t + (k : Int)

/-- The loop that adds listeners, from `listener_ports[i]` on, with the turns
that are left; `t` is the port a range starts from. -/
def addPorts (entry : Nat → Int) : Nat → Nat → Int → Except PortFault (List Int)
  | 0, _, _ => .ok []
  | n + 1, i, t =>
      if maxPorts ≤ i then .error .overflow
      else if entry i ≠ -1 then (addPorts entry n (i + 1) (entry i)).map (entry i :: ·)
      else if maxPorts ≤ i + 1 then .error .overflow
      else
        match n with
        | 0 => .ok (portRange t (entry (i + 1)))
        | n + 1 =>
            (addPorts entry n (i + 2) (max t (entry (i + 1) + 1))).map
              (portRange t (entry (i + 1)) ++ ·)

/-- The ports that are added for `address`, with `found` for what
`find_listener_by_uuid` finds. -/
def commitPorts (found : Bool) (address : List UInt8) (ports : Ports) :
    Except PortFault (List Int) :=
  if address = [] then
    if ports.count = 0 then .ok []
    else if found then addPorts ports.entry (ports.count + 1) 0 (-1)
    else .error .nullPointer
  else if ircStrncmp address (ascii ['A', 'L', 'L']) 3 = 0 then .error .nullPointer
  else addPorts ports.entry (ports.count + 1) 0 (-1)

/-- What `listener.htc` passes to `add_listener` when the form is committed,
with what is in `listener_ports` before. -/
def commitListener (fuel : Nat) (found : Bool) (memory : Nat → Int) (address range : List UInt8) :
    Except PortFault (List Int) :=
  (if range = [] then .ok { count := 0, entry := memory } else portLoop fuel range [] []).bind
    (commitPorts found address)

end TrIrcd
