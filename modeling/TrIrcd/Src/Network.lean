import TrIrcd.Lib.Alloc
import TrIrcd.Lib.Links
import TrIrcd.Src.Hash

/-!
# The clients of the network: `src/client.c`, `server/s_exit.c`

A client block carries its place in the tree of servers: `servptr` names the
server it is on, and the `lnext` and `lprev` fields link it into the `users`
or the `servers` of that server's `serv`. `usercnt` and `servercnt`, the counts
beside the two lists, are one function of the list here. `exitOneClient` and
`exitRecursion` call each other as in the source, on fuel.

Pointers are followed only where they point at something: a client block that
was freed, or a `serv` that was (`MyFree` leaves the pointer as it is), is a
`badPointer`. Of what the functions do this is the part about the tree, the
client hash table and the counts of servers and users. The messages sent, and
what other components are told about a client that leaves (channels, nick
history, watch lists, identities, listeners, the sockets), are not here; none
of it touches the fields below.
-/

namespace TrIrcd

open Function (update)
open TrIrcd.Lib

/-- `STAT_…` -/
inductive Status
  | connecting | handshake | me | unknown | server | client | service
deriving DecidableEq

/-- `cptr->serv` -/
inductive ServPtr
  | null | block | freed
deriving DecidableEq

/-- `struct Client`: the name, the status, four flags, whether the listener it
came from is the web server's, `from`, `user` with its `server`, `servptr` and
`serv`. -/
structure Client where
  name : List UInt8
  status : Status
  closing : Bool
  exited : Bool
  httpClient : Bool
  localClient : Bool
  listenerHttp : Bool
  fromPtr : Nat
  user : Option (List UInt8)
  servptr : Option Nat
  serv : ServPtr

/-- `serv->users` and `serv->servers` of a server. -/
inductive TreeList
  | users (p : Nat)
  | servers (p : Nat)
deriving DecidableEq

def TreeList.owner : TreeList → Nat
  | .users p => p
  | .servers p => p

/-- `Count`: `server`, `total`, `local`, `myserver`. -/
structure NetCount where
  server : Int
  total : Int
  localUsers : Int
  myserver : Int
deriving DecidableEq

/-- The client blocks handed out, their fields, the lists they are linked
into with the counts beside them, `clientTable` and `Count`. -/
structure NetSt where
  clients : List Nat
  client : Nat → Client
  llist : Links TreeList Nat
  cnt : TreeList → Int
  clientTable : HashTable
  count : NetCount

inductive NetFault
  | badPointer
  | outOfFuel
  | notCalled
deriving DecidableEq

/-! ## `src/client.c` -/

/-- `add_client_to_llist` -/
def addClientToLlist (bucket : TreeList) (aclient : Nat) (L : Links TreeList Nat) :
    Links TreeList Nat :=
  if L.prev aclient = none ∧ L.next aclient = none then L.add bucket aclient else L

/-- `del_client_from_llist` -/
def delClientFromLlist (bucket : TreeList) (aclient : Nat) (L : Links TreeList Nat) :
    Links TreeList Nat :=
  let L := match L.prev aclient with
    | some p => { L with next := update L.next p (L.next aclient) }
    | none =>
        if L.head bucket = some aclient then
          { L with head := update L.head bucket (L.next aclient) }
        else L
  let L := match L.next aclient with
    | some n => { L with prev := update L.prev n (L.prev aclient) }
    | none => L
  L.clear aclient

namespace NetSt

/-- The static block `me`. -/
def me : Nat := 0

/-- Write some fields of a client. -/
def modify (x : Nat) (f : Client → Client) (s : NetSt) : NetSt :=
  { s with client := update s.client x (f (s.client x)) }

/-- `p->serv`, about to be followed: whether there is one. -/
def serv (p : Nat) (s : NetSt) : Except NetFault Bool :=
  if p ∈ s.clients then
    match (s.client p).serv with
    | .null => .ok false
    | .block => .ok true
    | .freed => .error .badPointer
  else .error .badPointer

/-- `make_client` -/
def makeClient (A : Allocator) (link : Option Nat) (s : NetSt) : Nat × NetSt :=
  let cptr := A.pick s.clients
  (cptr, { s with
    clients := cptr :: s.clients
    client := update s.client cptr
      { name := [], status := .unknown, closing := false, exited := false,
        httpClient := false, localClient := link.isNone, listenerHttp := false,
        fromPtr := link.getD cptr, user := none, servptr := none, serv := .null }
    llist := s.llist.clear cptr
    clientTable := { s.clientTable with
      buckets := s.clientTable.buckets.clearNext cptr } })

/-- `make_server` -/
def makeServer (cptr : Nat) (s : NetSt) : NetSt :=
  match (s.client cptr).serv with
  | .null =>
      let s := s.modify cptr fun c => { c with serv := .block }
      { s with
        llist := { s.llist with
          head := update (update s.llist.head (.users cptr) none) (.servers cptr) none }
        cnt := update (update s.cnt (.users cptr) 0) (.servers cptr) 0 }
  | _ => s

/-- `remove_client_from_list`, as far as the block is freed. -/
def removeClientFromList (cptr : Nat) (s : NetSt) : NetSt :=
  { s with clients := s.clients.erase cptr }

/-! ## `server/s_exit.c` -/

/-- A client leaves a list of its `servptr`. -/
def leave (list : Nat → TreeList) (exitPtr : Nat) (s : NetSt) : Except NetFault NetSt :=
  match (s.client exitPtr).servptr with
  | none => .ok s
  | some p =>
      (s.serv p).map fun serv =>
        if serv then
          { s with
            llist := delClientFromLlist (list p) exitPtr s.llist
            cnt := update s.cnt (list p) (s.cnt (list p) - 1) }
        else s

/-- `MyFree(exit_ptr->serv)`, where there is one. -/
def freeServ (exitPtr : Nat) (s : NetSt) : Except NetFault NetSt :=
  match (s.client exitPtr).serv with
  | .null => .ok s
  | .block => .ok (s.modify exitPtr fun c => { c with serv := .freed })
  | .freed => .error .badPointer

/-- The end of what `exit_one_client` does for a server. -/
def exitServer (exitPtr : Nat) (s : NetSt) : Except NetFault NetSt :=
  (s.leave .servers exitPtr).bind fun s =>
    freeServ exitPtr { s with count := { s.count with server := s.count.server - 1 } }

/-- What `exit_one_client` does for a person. -/
def exitPerson (exitPtr : Nat) (s : NetSt) : Except NetFault NetSt :=
  (s.leave .users exitPtr).map fun s => s.modify exitPtr fun c => { c with user := none }

/-- `IsPerson` -/
def isPerson (x : Nat) (s : NetSt) : Bool :=
  (s.client x).user.isSome && (s.client x).status = .client

mutual

/-- `exit_one_client` -/
def exitOneClient (key : UInt32) : Nat → Nat → NetSt → Except NetFault NetSt
  | 0, _, _ => .error .outOfFuel
  | fuel + 1, exitPtr, s =>
      if (s.client exitPtr).status = .me then .ok s
      else
        let s := if (s.client exitPtr).status = .client then
          { s with count := { s.count with total := s.count.total - 1 } } else s
        (if (s.client exitPtr).status = .server then
          (exitRecursion key fuel exitPtr s).bind (exitServer exitPtr) else .ok s).bind fun s =>
        (if s.isPerson exitPtr then s.exitPerson exitPtr else .ok s).bind fun s =>
        .ok { s with
          clientTable :=
            (delFromClientHashTable key (s.client exitPtr).name exitPtr s.clientTable).2 }

/-- `exit_recursion` -/
def exitRecursion (key : UInt32) : Nat → Nat → NetSt → Except NetFault NetSt
  | 0, _, _ => .error .outOfFuel
  | fuel + 1, dead, s =>
      if (s.client dead).status = .me then .ok s
      else
        (s.serv dead).bind fun serv =>
          if serv then (usersLoop key fuel dead s).bind (serversLoop key fuel dead) else .ok s

/-- Its first loop. -/
def usersLoop (key : UInt32) : Nat → Nat → NetSt → Except NetFault NetSt
  | 0, _, _ => .error .outOfFuel
  | fuel + 1, dead, s =>
      (s.serv dead).bind fun serv =>
        if serv then
          match s.llist.head (.users dead) with
          | none => .ok s
          | some acptr =>
              (exitOneClient key fuel acptr s).bind fun s =>
              let s := s.modify acptr fun c => { c with exited := true }
              usersLoop key fuel dead (s.removeClientFromList acptr)
        else .error .badPointer

/-- Its second loop. -/
def serversLoop (key : UInt32) : Nat → Nat → NetSt → Except NetFault NetSt
  | 0, _, _ => .error .outOfFuel
  | fuel + 1, dead, s =>
      (s.serv dead).bind fun serv =>
        if serv then
          match s.llist.head (.servers dead) with
          | none => .ok s
          | some acptr =>
              (exitRecursion key fuel acptr s).bind fun s =>
              (exitOneClient key fuel acptr s).bind fun s =>
              let s := s.modify acptr fun c => { c with exited := true }
              serversLoop key fuel dead (s.removeClientFromList acptr)
        else .error .badPointer

end

/-- Enough for any tree of the clients there are. -/
def exitFuel (s : NetSt) : Nat := 4 * s.clients.length + 4

/-- `exit_client` -/
def exitClient (key : UInt32) (exitPtr : Nat) (s : NetSt) : Except NetFault NetSt :=
  let c := s.client exitPtr
  if c.status = .me then .ok s
  else if c.exited || c.closing || c.httpClient then .ok s
  else
    let s := s.modify exitPtr fun c => { c with closing := true }
    if c.localClient then
      if c.listenerHttp then .ok s
      else
        let s := if c.status = .client then
          { s with count := { s.count with localUsers := s.count.localUsers - 1 } } else s
        let s := if c.status = .server then
          { s with count := { s.count with myserver := s.count.myserver - 1 } } else s
        (exitOneClient key s.exitFuel exitPtr s).map fun s =>
          s.modify exitPtr fun c => { c with exited := true }
    else
      -- The flag is written into the block after it was freed.
      (exitOneClient key s.exitFuel exitPtr s).map fun s =>
        (s.removeClientFromList exitPtr).modify exitPtr fun c => { c with exited := true }

/-! ## `server/s_user.c` and `server/s_serv.c` -/

/-- `find_server` -/
def findServer (key : UInt32) (server : List UInt8) (s : NetSt) : Option Nat :=
  let hashv := (strhash key server).toNat
  if hashv ≤ 0 then none
  else s.clientTable.buckets.find hashv fun tmp =>
    ((s.client tmp).status = .server || (s.client tmp).status = .me) &&
      ircStrcmp server (s.client tmp).name = 0

/-- A client joins a list of its `servptr`. -/
def join (list : TreeList) (sourceP : Nat) (s : NetSt) : Except NetFault NetSt :=
  (s.serv list.owner).bind fun serv =>
    if serv then
      .ok { s with
        llist := addClientToLlist list sourceP s.llist
        cnt := update s.cnt list (s.cnt list + 1) }
    else .error .badPointer

/-- How the checks at the start of `register_local_user` end: they let the
client in, exit it, or return. -/
inductive Verdict
  | accept | exit | ignore
deriving DecidableEq

/-- `register_local_user` -/
def registerLocalUser (key : UInt32) (verdict : Verdict) (sourceP : Nat) (s : NetSt) :
    Except NetFault NetSt :=
  match verdict with
  | .exit => exitClient key sourceP s
  | .ignore => .ok s
  | .accept =>
      let s := s.modify sourceP fun c => { c with status := .client, servptr := some me }
      let s := { s with count := { s.count with localUsers := s.count.localUsers + 1 } }
      (s.join (.users me) sourceP).map fun s =>
        { s with count := { s.count with total := s.count.total + 1 } }

/-- `register_remote_user` -/
def registerRemoteUser (key : UInt32) (sourceP : Nat) (s : NetSt) : Except NetFault NetSt :=
  match (s.client sourceP).user with
  | none => .error .badPointer
  | some server =>
      let s := s.modify sourceP fun c => { c with status := .client }
      let s := { s with count := { s.count with total := s.count.total + 1 } }
      let s' := s.modify sourceP fun c => { c with servptr := findServer key server s }
      match findServer key server s with
      | none => exitClient key sourceP s'
      | some targetP =>
          if (s'.client targetP).fromPtr ≠ (s'.client sourceP).fromPtr then
            exitClient key sourceP s'
          else s'.join (.users targetP) sourceP

/-- `server_estab`, once the connection has been found to be a server's. -/
def serverEstab (key : UInt32) (clientP : Nat) (s : NetSt) : Except NetFault NetSt :=
  let s := s.modify clientP fun c => { c with status := .server, servptr := some me }
  (s.join (.servers me) clientP).map fun s =>
    makeServer clientP { s with
      count := { s.count with
        server := s.count.server + 1
        myserver := s.count.myserver + 1 }
      clientTable := addToClientHashTable key (s.client clientP).name clientP s.clientTable }

/-! ## Calls -/

/-- `me` as `ircd.c` sets it up. -/
def init (key : UInt32) (name : List UInt8) : NetSt where
  clients := [me]
  client _ :=
    { name := name, status := .me, closing := false, exited := false, httpClient := false,
      localClient := true, listenerHttp := false, fromPtr := me, user := some name,
      servptr := some me, serv := .block }
  llist := Links.empty
  cnt _ := 0
  clientTable := addToClientHashTable key name me HashTable.cleared
  count := { server := 1, total := 0, localUsers := 0, myserver := 0 }

/-- A client has said who it is: a block, its name, a `user` with the server
the user says it is on, and an entry in the hash table. `link` is `from` for a
client behind another server. -/
def newUser (A : Allocator) (key : UInt32) (link : Option Nat) (name server : List UInt8)
    (s : NetSt) : NetSt :=
  let (cptr, s) := s.makeClient A link
  let s := s.modify cptr fun c => { c with name := name, user := some server }
  { s with clientTable := addToClientHashTable key name cptr s.clientTable }

/-- A connection that has sent the name of a server. -/
def newServer (A : Allocator) (name : List UInt8) (s : NetSt) : NetSt :=
  let (cptr, s) := s.makeClient A none
  s.modify cptr fun c => { c with name := name }

/-- Whether a client may register: commands of closing clients are not
looked at, and a registered client is refused. -/
def unregistered (x : Nat) (s : NetSt) : Bool :=
  let c := s.client x
  x ∈ s.clients && c.status = .unknown &&
    !(c.closing || c.exited || c.httpClient || (c.localClient && c.listenerHttp))

/-- Whether a client has given its name and its user. -/
def introduced (x : Nat) (s : NetSt) : Bool :=
  (s.client x).name ≠ [] && (s.client x).user.isSome

end NetSt

inductive NetOp
  | newUser (link : Option Nat) (name server : List UInt8)
  | newServer (name : List UInt8)
  | serverEstab (clientP : Nat)
  | registerLocalUser (verdict : NetSt.Verdict) (sourceP : Nat)
  | registerRemoteUser (sourceP : Nat)
  | exitClient (exitPtr : Nat)

/-- One call; `notCalled` where the program does not make it. -/
def NetSt.step (A : Allocator) (key : UInt32) (s : NetSt) : NetOp → Except NetFault NetSt
  | .newUser link name server => .ok (s.newUser A key link name server)
  | .newServer name => .ok (s.newServer A name)
  | .serverEstab c =>
      if s.unregistered c && (s.client c).user.isNone then s.serverEstab key c
      else .error .notCalled
  | .registerLocalUser verdict c =>
      if s.unregistered c && s.introduced c && (s.client c).localClient then
        s.registerLocalUser key verdict c
      else .error .notCalled
  | .registerRemoteUser c =>
      if s.unregistered c && s.introduced c && !(s.client c).localClient then
        s.registerRemoteUser key c
      else .error .notCalled
  | .exitClient c => if c ∈ s.clients then s.exitClient key c else .error .notCalled

end TrIrcd
