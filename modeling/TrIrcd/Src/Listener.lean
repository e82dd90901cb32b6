import TrIrcd.Lib.Alloc
import TrIrcd.Src.Match
import Mathlib.Logic.Function.Basic

/-!
# `server/s_listener.c`: listeners, and the clients that came through them

`add_connection` of `server/s_bsd.c` makes the client of an accepted socket,
lets it point to its listener and counts it there. `exit_client` of
`server/s_exit.c` takes both back, and frees a listener that is closed and
counts no client any more. A client of the web server never gets that far: its
connections, and `hclient_list`, are those of `src/httpd/httpd_main.c` and
`httpd_reader.c`.

A listener is on `ListenerPollList` from `make_listener` to `free_listener`, so
the list says which listeners there are. Reading one that is not there has no
next state. What the system answers is part of a call, and so is what
`find_listener` finds in the address that `add_listener` has not set yet.
`unknown_list`, the statistics and what is sent are left out.
-/

namespace TrIrcd

open Function (update)
open TrIrcd.Lib

/-- `struct Listener` -/
structure Listener where
  fd : Int
  port : Nat
  addr : List UInt8
  refCount : Int
  active : Bool
  /-- `LISTENER_HTTP` -/
  http : Bool
  /-- `LISTENER_CLIENT_SSL` -/
  clientSsl : Bool

/-- What `aClient` says about a connection. -/
structure ListenClient where
  listener : Option Nat
  hostip : List UInt8
  ssl : Bool
  closing : Bool
  exited : Bool
  httpClient : Bool

structure ListenSt where
  listener : Nat → Listener
  pollList : List Nat
  client : Nat → ListenClient
  /-- The clients that `free_local_aClients` has handed out. -/
  clients : List Nat
  exitList : List Nat
  hclientList : List Nat

/-- `GeneralOpts.doing_ssl`, and whether the web server is loaded. -/
structure ListenConf where
  doingSsl : Bool
  httpd : Bool

/-- An accepted socket: its address unless `getpeername` fails, and whether
`SSL_new` and `SSL_accept` succeed. -/
structure Accepted where
  hostip : Option (List UInt8)
  sslNew : Bool
  sslAccept : Bool

inductive ListenStop
  /-- A listener or client is read that was freed. -/
  | freed
  /-- `assert(0 < exit_ptr->listener->ref_count)` -/
  | refCount
  deriving DecidableEq, Repr

namespace ListenSt

def init : ListenSt where
  listener _ := ⟨-1, 0, [], 0, false, false, false⟩
  pollList := []
  client _ := ⟨none, [], false, false, false, false⟩
  clients := []
  exitList := []
  hclientList := []

def setListener (l : Nat) (li : Listener) (s : ListenSt) : ListenSt :=
  { s with listener := update s.listener l li }

def setClient (c : Nat) (cl : ListenClient) (s : ListenSt) : ListenSt :=
  { s with client := update s.client c cl }

/-- `IsListenerHttp` -/
def isListenerHttp (s : ListenSt) : Option Nat → Bool
  | none => false
  | some l => (s.listener l).http

/-! ## Listeners -/

/-- `free_listener` -/
def freeListener (l : Nat) (s : ListenSt) : ListenSt :=
  { s with pollList := s.pollList.erase l }

/-- `close_listener` -/
def closeListener (l : Nat) (s : ListenSt) : Except ListenStop ListenSt :=
  if l ∉ s.pollList then .error .freed
  else
    let li := { s.listener l with fd := -1, active := false }
    let s := s.setListener l li
    if li.refCount ≠ 0 then .ok s else .ok (s.freeListener l)

/-- The loop of `close_listeners`, over the listeners it has not come to. -/
def closeLoop : List Nat → ListenSt → Except ListenStop ListenSt
  | [], s => .ok s
  | l :: ls, s =>
      if l ∉ s.pollList then .error .freed
      else if (s.listener l).http then closeLoop ls s
      else (s.closeListener l).bind (closeLoop ls)

/-- `close_listeners` -/
def closeListeners (s : ListenSt) : Except ListenStop ListenSt := closeLoop s.pollList s

/-- `find_listener`: the first open one, or the last closed one. -/
def findListener (port : Nat) (addr : List UInt8) (s : ListenSt) : Option Nat :=
  let found := s.pollList.filter fun l =>
    port = (s.listener l).port ∧ addr = (s.listener l).addr
  match found.find? fun l => (s.listener l).fd ≠ -1 with
  | some l => some l
  | none => found.getLast?

/-- The end of `add_listener`; `inet` is the socket of `inetport`. -/
def openListener (l : Nat) (inet : Option Nat) (s : ListenSt) : Except ListenStop ListenSt :=
  let s := s.setListener l { s.listener l with fd := -1 }
  match inet with
  | some fd => .ok (s.setListener l { s.listener l with fd := fd, active := true })
  | none => s.closeListener l

/-- `add_listener`. The address is `none` if `inetpton` refuses it. -/
def addListener (A : Allocator) (port : Nat) (vaddr : List UInt8) (addr : Option (List UInt8))
    (http clientSsl : Bool) (inet : Option Nat) (s : ListenSt) : Except ListenStop ListenSt :=
  if port = 0 then .ok s
  else
    match s.findListener port vaddr with
    | some l => if (s.listener l).fd > -1 then .ok s else s.openListener l inet
    | none =>
        match addr with
        | none => .ok s
        | some addr =>
            let l := A.pick s.pollList
            openListener l inet
              { s with
                listener := update s.listener l ⟨-1, port, addr, 0, false, http, clientSsl⟩
                pollList := l :: s.pollList }

/-! ## Clients -/

/-- `free_client` -/
def freeClient (c : Nat) (s : ListenSt) : ListenSt := { s with clients := s.clients.erase c }

/-- `regain_httpd_listener` -/
def regainHttpdListener (hostip : List UInt8) (s : ListenSt) : Option Nat :=
  s.hclientList.find? fun acptr => ircStrcmp (s.client acptr).hostip hostip = 0

/-- The client of `hookid_make_listener_client`, if the hook answers one. -/
def regained (conf : ListenConf) (l : Nat) (hostip : List UInt8) (s : ListenSt) : Option Nat :=
  if (s.listener l).http ∧ conf.httpd then s.regainHttpdListener hostip else none

/-- `add_connection` from `new_client->listener` on. -/
def attachClient (conf : ListenConf) (l : Nat) (peer : Accepted) (c : Nat) (s : ListenSt) : ListenSt :=
  let s := s.setClient c { s.client c with listener := some l }
  let s := s.setListener l { s.listener l with refCount := (s.listener l).refCount + 1 }
  if (s.listener l).clientSsl ∧ conf.doingSsl ∧ ¬(s.client c).ssl then
    if ¬peer.sslNew then s.freeClient c
    else
      let s := s.setClient c { s.client c with ssl := true }
      if ¬peer.sslAccept then s.freeClient c else s
  else s

/-- `add_connection` -/
def addConnection (A : Allocator) (conf : ListenConf) (l : Nat) (peer : Accepted) (s : ListenSt) :
    Except ListenStop ListenSt :=
  if l ∉ s.pollList then .error .freed
  else
    match peer.hostip with
    | none => .ok s
    | some hostip =>
        let c := A.pick s.clients
        let s := { s with
          client := update s.client c ⟨none, hostip, false, false, false, false⟩
          clients := c :: s.clients }
        match s.regained conf l hostip with
        | some acptr => .ok (attachClient conf l peer acptr (s.freeClient c))
        | none => .ok (s.attachClient conf l peer c)

/-- What `exit_client` does about the listener. -/
def dropListener (c : Nat) (s : ListenSt) : Except ListenStop ListenSt :=
  match (s.client c).listener with
  | none => .ok s
  | some l =>
      let li := s.listener l
      if ¬0 < li.refCount then .error .refCount
      else
        let s := s.setListener l { li with refCount := li.refCount - 1 }
        let s := if li.refCount - 1 = 0 ∧ ¬li.active then s.freeListener l else s
        .ok (s.setClient c { s.client c with listener := none })

/-- `exit_client` on a local client. -/
def exitClient (c : Nat) (s : ListenSt) : Except ListenStop ListenSt :=
  if c ∉ s.clients then .error .freed
  else if (s.client c).exited ∨ (s.client c).closing ∨ (s.client c).httpClient then .ok s
  else
    let s := s.setClient c { s.client c with closing := true }
    if ∃ l ∈ (s.client c).listener, l ∉ s.pollList then .error .freed
    else if s.isListenerHttp (s.client c).listener then .ok s
    else
      (s.dropListener c).map fun s =>
        { s.setClient c { s.client c with exited := true } with exitList := c :: s.exitList }

/-- `remove_exited_clients` -/
def removeExitedClients (s : ListenSt) : ListenSt :=
  { s with
    clients := s.clients.filter fun c => ¬(c ∈ s.exitList ∧ (s.client c).exited)
    exitList := s.exitList.filter fun c => ¬(s.client c).exited }

/-- `finalize_http_client` -/
def finalizeHttpClient (c : Nat) (s : ListenSt) : ListenSt :=
  let s := s.setClient c
    { s.client c with httpClient := true, closing := false, exited := false }
  if c ∈ s.hclientList then s else { s with hclientList := c :: s.hclientList }

/-- `remove_exited_httpd_clients` and `remove_remaining_httpd_clients`, on the
clients that are late. -/
def removeHttpdClients (late : Nat → Bool) (s : ListenSt) : ListenSt :=
  { s with
    clients := s.clients.filter fun c => ¬(c ∈ s.hclientList ∧ late c)
    hclientList := s.hclientList.filter fun c => ¬late c }

end ListenSt

/-! ## Any sequence of calls -/

inductive ListenOp
  | addListener (port : Nat) (vaddr : List UInt8) (addr : Option (List UInt8))
      (http clientSsl : Bool) (inet : Option Nat)
  | closeListener (l : Nat)
  | closeListeners
  | addConnection (l : Nat) (peer : Accepted)
  | exitClient (c : Nat)
  | removeExitedClients
  | finalizeHttpClient (c : Nat)
  | removeHttpdClients (late : Nat → Bool)

def ListenSt.step (A : Allocator) (conf : ListenConf) (s : ListenSt) :
    ListenOp → Except ListenStop ListenSt
  | .addListener port vaddr addr http clientSsl inet =>
      s.addListener A port vaddr addr http clientSsl inet
  | .closeListener l => s.closeListener l
  | .closeListeners => s.closeListeners
  | .addConnection l peer => s.addConnection A conf l peer
  | .exitClient c => s.exitClient c
  | .removeExitedClients => .ok s.removeExitedClients
  | .finalizeHttpClient c => .ok (s.finalizeHttpClient c)
  | .removeHttpdClients late => .ok (s.removeHttpdClients late)

end TrIrcd
