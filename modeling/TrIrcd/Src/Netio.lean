import TrIrcd.Lib.Run
import TrIrcd.Src.Fd

/-!
# `server/s_bsd_poll.c` and `server/s_bsd_select.c`: waiting for descriptors

The server is built with one of the two. Each keeps what the system is asked to
wait for: arrays of `struct pollfd` in which a descriptor has a slot, or sets of
descriptors. What they have in common is here once, and takes the function that
brings the arrays or the sets up to date.

Handlers and data are addresses, and so they stay from one call to the next. A
`comm_index` below 0 is `none`, and so is an `fd` of -1. `m` is `MAXCONNECTIONS`. The
`timeout` of `comm_setselect` is 0 in every call, and is left out. `comm_select` is what
happens once `poll` or `select` has answered with something; what the handlers do is a
parameter. One function runs at a time here, though the web server has a thread of its
own.
-/

namespace TrIrcd

open TrIrcd.Lib

/-- `fdlist_t` -/
inductive FdList
  | none | ircd | httpd
deriving DecidableEq

/-- `COMM_SELECT_READ` and `COMM_SELECT_WRITE`, or `POLLRDNORM` and `POLLWRNORM`. -/
inductive SelEvent
  | read | write
deriving DecidableEq

/-- The fields of `struct _fde` that are for the selection. -/
structure FdeSel where
  list : FdList
  commIndex : Option Nat
  handler : SelEvent → Option Nat
  data : SelEvent → Option Nat

/-- An entry that `memset` has cleared. -/
def FdeSel.zero : FdeSel where
  list := .none
  commIndex := some 0
  handler _ := Option.none
  data _ := Option.none

inductive NetAssertion
  | fd (e : FdAssertion)
  | setselect
  | findslot
deriving DecidableEq

/-- The descriptors, and what the system is asked to wait for. -/
structure NetioSt (β : Type) where
  fds : FdCount
  sel : Nat → FdeSel
  waits : β

/-- `poll_update_pollfds` or `select_update_selectfds`: of the handler they read whether
there is one. -/
abbrev NetUpdate (β : Type) :=
  Nat → FdList → SelEvent → Bool → NetioSt β → Except NetAssertion (NetioSt β)

/-- What is done to the descriptors: `take` is what `comm_select` does before it calls a
handler. -/
inductive NetioOp
  | fdOpen (fd : Nat) (type : FdType)
  | fdClose (fd : Nat)
  | setselect (fd : Nat) (list : FdList) (type : SelEvent → Bool) (handler data : Option Nat)
  | take (fd : Nat) (event : SelEvent)

namespace NetioOp

/-- The descriptor it is about. -/
def fd : NetioOp → Nat
  | .fdOpen fd _ => fd
  | .fdClose fd => fd
  | .setselect fd .. => fd
  | .take fd _ => fd

end NetioOp

namespace NetioSt

variable {β : Type}

def isOpen (s : NetioSt β) (fd : Nat) : Bool := (s.fds.fds.fdTable fd).isOpen

def setSel (s : NetioSt β) (fd : Nat) (F : FdeSel) : NetioSt β :=
  { s with sel := Function.update s.sel fd F }

variable (update : NetUpdate β)

/-- `comm_setselect`, for one of the two events. -/
def setHandler (fd : Nat) (list : FdList) (event : SelEvent) (handler data : Option Nat)
    (s : NetioSt β) : Except NetAssertion (NetioSt β) :=
  let F := s.sel fd
  update fd list event handler.isSome (s.setSel fd { F with
    handler := Function.update F.handler event handler
    data := Function.update F.data event data })

/-- `comm_setselect` -/
def commSetselect (fd : Nat) (list : FdList) (type : SelEvent → Bool)
    (handler data : Option Nat) (s : NetioSt β) : Except NetAssertion (NetioSt β) :=
  if ¬ s.isOpen fd then .error .setselect
  else
    let s := s.setSel fd { s.sel fd with list := list }
    (if type .read then s.setHandler update fd list .read handler data else .ok s).bind fun s =>
      if type .write then s.setHandler update fd list .write handler data else .ok s

/-- `fd_close` -/
def fdClose (m fd : Nat) (s : NetioSt β) : Except NetAssertion (NetioSt β) :=
  let F := s.fds.fds.fdTable fd
  if ¬ F.isOpen then .error (.fd .closeClosed)
  else if F.type = .file then .error (.fd .closeFile)
  else (s.commSetselect update fd .none (fun _ => true) none none).bind fun s =>
    match s.fds.fdClose m fd with
    | .error e => .error (.fd e)
    | .ok fds => .ok { s.setSel fd FdeSel.zero with fds := fds }

/-- `fd_open` -/
def fdOpen (m fd : Nat) (type : FdType) (s : NetioSt β) : Except NetAssertion (NetioSt β) :=
  (if s.isOpen fd then s.fdClose update m fd else .ok s).bind fun s =>
    match s.fds.fdOpen m fd type with
    | .error e => .error (.fd e)
    | .ok fds =>
        .ok { s.setSel fd { s.sel fd with commIndex := none, list := .none } with fds := fds }

/-- `comm_select` takes off the handler for an event, and finds the data. -/
def take (fd : Nat) (event : SelEvent) (s : NetioSt β) :
    Except NetAssertion (NetioSt β × Option (Nat × Option Nat)) :=
  let F := s.sel fd
  (update fd F.list event false (s.setSel fd { F with
    handler := Function.update F.handler event none })).map fun s =>
      (s, (F.handler event).map fun hdl => (hdl, (s.sel fd).data event))

def step (m : Nat) (s : NetioSt β) : NetioOp → Except NetAssertion (NetioSt β)
  | .fdOpen fd type => s.fdOpen update m fd type
  | .fdClose fd => s.fdClose update m fd
  | .setselect fd list type handler data => s.commSetselect update fd list type handler data
  | .take fd event => (s.take update fd event).map Prod.fst

end NetioSt

/-! ## The arrays of `s_bsd_poll.c` -/

/-- `struct pollfd`, with the two tests that `comm_select` makes on `revents`. -/
structure Pollfd where
  fd : Option Nat
  events : SelEvent → Bool
  revents : SelEvent → Bool

/-- `pollfd_list_t` -/
structure PollfdList where
  pollfds : Nat → Pollfd
  maxindex : Int

/-- The two arrays. -/
inductive PollName
  | pollfdList | httpfdList
deriving DecidableEq

/-- The choice of `fd_list`. -/
def FdList.pollName : FdList → PollName
  | .none => .pollfdList
  | .ircd => .pollfdList
  | .httpd => .httpfdList

abbrev PollLists := PollName → PollfdList

namespace PollfdList

def free : Pollfd where
  fd := none
  events _ := false
  revents _ := false

/-- `init_netio` -/
def init : PollfdList where
  pollfds _ := free
  maxindex := 0

def setSlot (l : PollfdList) (i : Nat) (p : Pollfd) : PollfdList :=
  { l with pollfds := Function.update l.pollfds i p }

/-- `poll_findslot` -/
def findslot (m : Nat) (l : PollfdList) : Option Nat :=
  (List.range m).find? fun i => (l.pollfds i).fd.isNone

/-- The loop that lowers `maxindex`: the last slot in use before `n`. -/
def lastUsed (l : PollfdList) : Nat → Int
  | 0 => -1
  | n + 1 => if (l.pollfds n).fd.isSome then n else lastUsed l n

/-- There is a handler for the event. -/
def watch (l : PollfdList) (i fd : Nat) (event : SelEvent) : PollfdList :=
  let p := l.pollfds i
  { l.setSlot i { p with events := Function.update p.events event true, fd := some fd } with
    maxindex := if i > l.maxindex then i else l.maxindex }

/-- The slot is given back. -/
def giveBack (l : PollfdList) (i : Nat) : PollfdList :=
  let l := l.setSlot i free
  if i = l.maxindex then { l with maxindex := lastUsed l (i + 1) } else l

end PollfdList

namespace NetioSt

/-- `poll_update_pollfds` -/
def pollUpdatePollfds (m : Nat) : NetUpdate PollLists := fun fd list event handler s =>
  let name := list.pollName
  let F := s.sel fd
  match F.commIndex <|> (s.waits name).findslot m with
  | none => .error .findslot
  | some i =>
      let l := s.waits name
      let p := l.pollfds i
      if handler then
        .ok { s.setSel fd { F with commIndex := some i, list := list } with
          waits := Function.update s.waits name (l.watch i fd event) }
      else
        let events := Function.update p.events event false
        if events .read ∨ events .write then
          .ok { s.setSel fd { F with commIndex := some i } with
            waits := Function.update s.waits name (l.setSlot i { p with events := events }) }
        else
          .ok { s.setSel fd { F with commIndex := none, list := .none } with
            waits := Function.update s.waits name (l.giveBack i) }

def pollInit : NetioSt PollLists where
  fds := FdCount.init
  sel _ := FdeSel.zero
  waits _ := PollfdList.init

def pollStep (m : Nat) : NetioSt PollLists → NetioOp → Except NetAssertion (NetioSt PollLists) :=
  step (pollUpdatePollfds m) m

end NetioSt

/-! ## The sets of `s_bsd_select.c` -/

/-- `select_readfds`, `select_writefds`, `httpd_readfds`, `httpd_writefds`. -/
abbrev SelectSets := PollName → SelEvent → Nat → Bool

namespace NetioSt

/-- `select_update_selectfds` -/
def selectUpdateSelectfds : NetUpdate SelectSets := fun fd list event handler s =>
  .ok { s with waits := match list with
    | .none => fun name event => Function.update (s.waits name event) fd false
    | .ircd => Function.update s.waits .pollfdList (Function.update (s.waits .pollfdList) event
        (Function.update (s.waits .pollfdList event) fd handler))
    | .httpd => Function.update s.waits .httpfdList (Function.update (s.waits .httpfdList) event
        (Function.update (s.waits .httpfdList event) fd handler)) }

def selectInit : NetioSt SelectSets where
  fds := FdCount.init
  sel _ := FdeSel.zero
  waits _ _ _ := false

def selectStep (m : Nat) :
    NetioSt SelectSets → NetioOp → Except NetAssertion (NetioSt SelectSets) :=
  step selectUpdateSelectfds m

end NetioSt

/-! ## `comm_select` -/

/-- A call `hdl(fd, data)`, and which of the two handlers it is. -/
structure SelCall where
  fd : Nat
  event : SelEvent
  hdl : Nat
  data : Option Nat
deriving DecidableEq

/-- What a handler does to the descriptors and to the rest of the server, after what it
finds there. -/
abbrev NetHandlers (β σ : Type) := SelCall → NetioSt β → σ → List NetioOp × σ

/-- The state of the loop: the handlers called so far, and all that was done to the
descriptors. -/
structure SelectSt (β σ : Type) where
  net : NetioSt β
  rest : σ
  calls : List SelCall
  done : List NetioOp

namespace SelectSt

variable {β σ : Type} (update : NetUpdate β) (act : NetHandlers β σ) (m : Nat)

/-- A handler is called. -/
def call (c : SelCall) (s : SelectSt β σ) : Except NetAssertion (SelectSt β σ) :=
  let (ops, rest) := act c s.net s.rest
  (run (NetioSt.step update m) s.net ops).map fun net =>
    { net := net, rest := rest, calls := s.calls ++ [c], done := s.done ++ ops }

/-- The body of the loop, for one of the two events. -/
def serve (fd : Nat) (event : SelEvent) (s : SelectSt β σ) :
    Except NetAssertion (SelectSt β σ) :=
  (s.net.take update fd event).bind fun (net, hdl) =>
    let s := { s with net := net, done := s.done ++ [.take fd event] }
    match hdl with
    | none => .ok s
    | some (hdl, data) => s.call update act m ⟨fd, event, hdl, data⟩

/-- The body of the loop, for what `revents` or the copies of the sets say. -/
def serveBoth (fd : Nat) (ready : SelEvent → Bool) (s : SelectSt β σ) :
    Except NetAssertion (SelectSt β σ) :=
  (if ready .read then s.serve update act m fd .read else .ok s).bind fun s =>
    if ready .write then s.serve update act m fd .write else .ok s

end SelectSt

namespace PollfdList

/-- What `poll` writes into the slots it is shown. -/
def answered (l : PollfdList) (answer : Nat → SelEvent → Bool) : PollfdList :=
  { l with pollfds := fun i =>
    if (i : Int) < l.maxindex + 1 then
      match (l.pollfds i).fd with
      | none => { l.pollfds i with revents := fun _ => false }
      | some fd => { l.pollfds i with revents := answer fd }
    else l.pollfds i }

end PollfdList

namespace SelectSt

variable {σ : Type} (m : Nat)

section Poll

variable (act : NetHandlers PollLists σ)

def pollSlot (name : PollName) (ci : Nat) (s : SelectSt PollLists σ) :
    Except NetAssertion (SelectSt PollLists σ) :=
  let p := (s.net.waits name).pollfds ci
  match p.fd with
  | none => .ok s
  | some fd => s.serveBoth (NetioSt.pollUpdatePollfds m) act m fd p.revents

/-- The loop of `comm_select` from `ci` on, with `n` slots left in the array. -/
def pollLoop (name : PollName) : Nat → Nat → SelectSt PollLists σ →
    Except NetAssertion (SelectSt PollLists σ)
  | 0, _, s => .ok s
  | n + 1, ci, s =>
      if (ci : Int) < (s.net.waits name).maxindex + 1 then
        (s.pollSlot m act name ci).bind (pollLoop name n (ci + 1))
      else .ok s

/-- `comm_select`, when `poll` has answered. -/
def pollCommSelect (name : PollName) (answer : Nat → SelEvent → Bool)
    (s : SelectSt PollLists σ) : Except NetAssertion (SelectSt PollLists σ) :=
  pollLoop m act name m 0 { s with net := { s.net with
    waits := Function.update s.net.waits name ((s.net.waits name).answered answer) } }

end Poll

section Select

variable (act : NetHandlers SelectSets σ)

/-- The loop of `comm_select` from `fd` on, with `n` descriptors left. -/
def selectLoop (tmp : SelEvent → Nat → Bool) : Nat → Nat → SelectSt SelectSets σ →
    Except NetAssertion (SelectSt SelectSets σ)
  | 0, _, s => .ok s
  | n + 1, fd, s =>
      if (fd : Int) < s.net.fds.fds.highestFd + 1 then
        (s.serveBoth NetioSt.selectUpdateSelectfds act m fd fun event => tmp event fd).bind
          (selectLoop tmp n (fd + 1))
      else .ok s

/-- `comm_select`, when `select` has answered: it leaves in the copies of the sets what
is ready. -/
def selectCommSelect (name : PollName) (answer : Nat → SelEvent → Bool)
    (s : SelectSt SelectSets σ) : Except NetAssertion (SelectSt SelectSets σ) :=
  let tmp event fd := s.net.waits name event fd && answer fd event
  selectLoop m act tmp m 0 s

end Select

end SelectSt

end TrIrcd
