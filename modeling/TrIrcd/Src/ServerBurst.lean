import TrIrcd.Lib.Links
import TrIrcd.Lib.Run

/-!
# `protocol/native.c` and `src/client.c`: the servers a new link is told of

All clients are on one doubly linked list, the newest first, and `me` is the
first that was there. `do_continue_server_estab` goes from `me` along `prev`
and sends a `SERVER` line for every server that is not behind the new link.

A client block has an address. The list changes by `add_client_to_list` and
`remove_client_from_list`; in between a client may register, which changes what
the lines say of it. A line carries what its format is given: in the form with
flags they are `H`, `U` and `R`, and the identity stands in it if there is one.
-/

namespace TrIrcd

open TrIrcd.Lib

/-- `STAT_ME` -/
def burstStatMe : Int := -2

/-- `STAT_SERVER` -/
def burstStatServer : Int := 0

/-- `aClient`, as far as the lines are about it. -/
structure BurstClient where
  name : List UInt8
  status : Int
  /-- `from` -/
  fromPtr : Nat
  servptr : Option Nat
  hopcount : Int
  /-- `WillHideName` -/
  hideName : Bool
  /-- `IsULine` -/
  uLine : Bool
  /-- `IsHub` -/
  hub : Bool
  /-- `id.string` of a client with `HasID`. -/
  id : Option (List UInt8)
  info : List UInt8
  /-- `IsIDCapable` -/
  idCapable : Bool
  deriving DecidableEq, Repr

/-- `IsServer` -/
def BurstClient.isServer (cptr : BurstClient) : Bool := cptr.status = burstStatServer

/-- A `SERVER` line: its prefix, the server it introduces, and the rest. -/
structure ServerLine where
  prefixPtr : Option Nat
  target : Nat
  hopcount : Int
  /-- `(H or N, U or N, R or N)` -/
  flags : Option (Bool × Bool × Bool)
  id : Option (List UInt8)
  info : List UInt8
  deriving DecidableEq, Repr

/-- The clients and their list. -/
structure GlobalSt where
  links : Links Unit Nat
  client : Nat → BurstClient
  /-- The blocks handed out. -/
  live : List Nat

namespace GlobalSt

/-- `me` -/
def me : Nat := 0

/-- `me` as `init_sys` leaves it, and `GlobalClientList` with it alone. -/
def init (name info : List UInt8) : GlobalSt where
  links := Links.empty.add () me
  client _ := ⟨name, burstStatMe, me, some me, 0, false, false, false, none, info, false⟩
  live := [me]

/-- The list from its head on. -/
def list (s : GlobalSt) : List Nat := walk s.links.next s.live.length (s.links.head ())

/-- `add_client_to_list`, of a block that `make_client` made. -/
def addClientToList (cptr : Nat) (c : BurstClient) (s : GlobalSt) : GlobalSt where
  links := s.links.add () cptr
  client := Function.update s.client cptr c
  live := cptr :: s.live

/-- `remove_client_from_list` -/
def removeClientFromList (cptr : Nat) (s : GlobalSt) : GlobalSt :=
  -- With both links null nothing points to the client, or the head alone does.
  let links := if s.links.prev cptr = none ∧ s.links.next cptr = none then s.links
    else s.links.del () cptr
  { s with links := links.clear cptr, live := s.live.erase cptr }

/-- The line for a server. -/
def serverLine (s : GlobalSt) (clientP targetP : Nat) : ServerLine :=
  let t := s.client targetP
  if (s.client clientP).idCapable then
    ⟨t.servptr, targetP, t.hopcount + 1, some (t.hideName, t.uLine, t.hub), t.id, t.info⟩
  else ⟨t.servptr, targetP, t.hopcount + 1, none, none, t.info⟩

/-- The loop of `do_continue_server_estab`. -/
def continueLoop (s : GlobalSt) (clientP : Nat) : Nat → Option Nat → List ServerLine
  | 0, _ => []
  | _ + 1, none => []
  | fuel + 1, some targetP =>
      let rest := continueLoop s clientP fuel (s.links.prev targetP)
      if (s.client targetP).fromPtr = clientP then rest
      else if (s.client targetP).isServer then serverLine s clientP targetP :: rest
      else rest

/-- `do_continue_server_estab` -/
def doContinueServerEstab (clientP : Nat) (s : GlobalSt) : List ServerLine :=
  continueLoop s clientP s.live.length (some me)

end GlobalSt

/-- What happens to the list, and to what is on it. -/
inductive GlobalOp
  | add (cptr : Nat) (c : BurstClient)
  | remove (cptr : Nat)
  | register (cptr : Nat) (c : BurstClient)

/-- A new client has its server on the list, and no client loses its server.
When a client registers its server stays, or is `me` from now on. -/
def GlobalSt.step (s : GlobalSt) : GlobalOp → Except Unit GlobalSt
  | .add cptr c =>
      if cptr ∉ s.live ∧ ∃ p ∈ c.servptr, p ∈ s.list then .ok (s.addClientToList cptr c)
      else .error ()
  | .remove cptr =>
      if ∀ c ∈ s.list, (s.client c).servptr ≠ some cptr then .ok (s.removeClientFromList cptr)
      else .error ()
  | .register cptr c =>
      if cptr ≠ GlobalSt.me ∧
          (c.servptr = (s.client cptr).servptr ∨ c.servptr = some GlobalSt.me) then
        .ok { s with client := Function.update s.client cptr c }
      else .error ()

end TrIrcd
