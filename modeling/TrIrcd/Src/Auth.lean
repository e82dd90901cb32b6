import Mathlib.Logic.Function.Basic

/-!
# `server/s_auth.c`: looking up who connects

A client that connects gets an `AuthRequest`, for which the resolver is asked
and an ident query is made. Whoever finds that the other is done takes the
request off `auth_poll_list`, frees it and releases the client; once a second
those are released whose time is over, and a client that exits takes its
request along.

Requests are named by the order in which they were made, so one that has been
freed keeps its name. `adns` is what the resolver still has to answer, with the
request that the callback gets; `fdTable` is what `fd_table` holds for an open
ident socket, and closing it forgets that. A callback for a request that has
been freed is a `useAfterFree`. `log` is what happened, the latest first.

The resolver does not answer while it is asked. Reading from a client that is
released is a later step, and so is its exit. Host and user names are left out,
and what an ident reply says but for whether there is a name in it.
-/

namespace TrIrcd

open Function (update)

/-- `CONNECTTIMEOUT` -/
def connectTimeout : Int := 30

/-- `ReportType` -/
inductive Report
  | doDns
  | finDns
  | failDns
  | doId
  | finId
  | failId
  | hostTooLong
deriving DecidableEq, Repr

/-- What happens to a client, or to a request. -/
inductive AuthEvent
  | told (c : Nat) (r : Report)
  /-- `auth_dns_callback` was called. -/
  | answered (c : Nat)
  /-- There is no ident query, or it came to its end. -/
  | identOver (c : Nat)
  /-- The time of the request was over. -/
  | timedOut (c : Nat)
  /-- `free_auth_request` -/
  | freed (a : Nat)
  /-- `release_auth_client` -/
  | released (c : Nat)
  | exited (c : Nat)
deriving DecidableEq, Repr

/-- Why a step is not taken: nobody calls it, or what C does not define. -/
inductive AuthFault
  | notCalled
  | useAfterFree
  | badFd
  | nullDeref
  | badCancel
deriving DecidableEq, Repr

/-! ## What comes from outside -/

inductive DnsAnswer
  | found
  | tooLong
  | failed
deriving DecidableEq, Repr

def DnsAnswer.report : DnsAnswer → Report
  | .found => .finDns
  | .tooLong => .hostTooLong
  | .failed => .failDns

/-- `recv` on the ident socket: it would block, or there is a reply, with a
valid name or not, or its end, or an error. -/
inductive IdentRead
  | wouldBlock
  | reply (valid : Bool)
deriving DecidableEq, Repr

/-- The connect fails, or the ports are not found, or the query is not sent; or
it is, and the reply is read. -/
inductive IdentConnect
  | failed
  | connected (recv : IdentRead)
deriving DecidableEq, Repr

/-- What `start_auth_query` finds: there is no descriptor, or it is too high, or
it blocks; or there is one, and perhaps the connect is through at once. -/
inductive IdentStart
  | noSocket
  | tooHigh
  | blocking
  | socket (fd : Nat) (res : Option IdentConnect)
deriving DecidableEq, Repr

/-! ## Requests -/

structure AuthRequest where
  client : Nat
  /-- `AM_AUTH_CONNECTING` -/
  connecting : Bool
  /-- `AM_AUTH_PENDING` -/
  pending : Bool
  /-- `AM_DNS_PENDING` -/
  dnsPending : Bool
  fd : Option Nat
  timeout : Int

/-- `IsDoingAuth` -/
def AuthRequest.doingAuth (auth : AuthRequest) : Bool := auth.pending || auth.connecting

/-- What an open descriptor waits for. -/
inductive FdHandler
  | idle
  /-- `connect.callback`, until the connect is through. -/
  | connect (a : Nat)
  /-- `read_auth_reply`, until there is something to read. -/
  | read (a : Nat)
deriving DecidableEq, Repr

structure AuthSt where
  request : Nat → AuthRequest
  made : Nat
  /-- `auth_poll_list` -/
  pollList : List Nat
  /-- The `dns_query` of a client, and whether its `query` is set. -/
  dnsQuery : Nat → Option Bool
  adns : Nat → Option Nat
  fdTable : Nat → Option FdHandler
  log : List AuthEvent

namespace AuthSt

/-- `init_auth` -/
def init : AuthSt where
  request _ := ⟨0, false, false, false, none, 0⟩
  made := 0
  pollList := []
  dnsQuery _ := none
  adns _ := none
  fdTable _ := none
  log := []

def setRequest (a : Nat) (auth : AuthRequest) (s : AuthSt) : AuthSt :=
  { s with request := update s.request a auth }

def note (e : AuthEvent) (s : AuthSt) : AuthSt := { s with log := e :: s.log }

/-- `sendheader` -/
def sendheader (c : Nat) (r : Report) (s : AuthSt) : AuthSt := note (.told c r) s

/-- `fd_close` -/
def fdClose (fd : Option Nat) (s : AuthSt) : Except AuthFault AuthSt :=
  match fd with
  | none => .error .badFd
  | some fd =>
      match s.fdTable fd with
      | none => .error .badFd
      | some _ => .ok { s with fdTable := update s.fdTable fd none }

/-- `delete_adns_queries` -/
def deleteAdnsQueries (c : Nat) (s : AuthSt) : Except AuthFault AuthSt :=
  match s.dnsQuery c with
  | some true =>
      match s.adns c with
      | none => .error .badCancel
      | some _ => .ok { s with adns := update s.adns c none }
  | _ => .ok s

/-- The end of `auth_dns_callback`, `auth_error` and `read_auth_reply`: the
request is unlinked and freed, and the client released. -/
def finish (a : Nat) (s : AuthSt) : AuthSt :=
  let c := (s.request a).client
  let s := { s with pollList := s.pollList.erase a }
  note (.released c) (note (.freed a) s)

/-! ## The resolver -/

/-- `auth_dns_callback` -/
def authDnsCallback (a : Nat) (answer : DnsAnswer) (s : AuthSt) : Except AuthFault AuthSt :=
  if .freed a ∈ s.log then .error .useAfterFree
  else
    let c := (s.request a).client
    let s := note (.answered c) s
    let s := s.setRequest a { s.request a with dnsPending := false }
    let s := sendheader c answer.report s
    let s := { s with dnsQuery := update s.dnsQuery c none }
    .ok (if (s.request a).doingAuth then s else finish a s)

/-! ## The ident query -/

/-- The descriptor of the request is closed, and `ClearAuth`. -/
def closeIdent (a : Nat) (s : AuthSt) : Except AuthFault AuthSt :=
  (fdClose (s.request a).fd s).map fun s =>
    let s := note (.identOver (s.request a).client) s
    s.setRequest a { s.request a with fd := none, connecting := false, pending := false }

/-- `auth_error` -/
def authError (a : Nat) (s : AuthSt) : Except AuthFault AuthSt :=
  (closeIdent a s).map fun s =>
    let s := sendheader (s.request a).client .failId s
    if (s.request a).dnsPending then s else finish a s

/-- `read_auth_reply` -/
def readAuthReply (fd a : Nat) (recv : IdentRead) (s : AuthSt) : Except AuthFault AuthSt :=
  if .freed a ∈ s.log then .error .useAfterFree
  else
    match recv with
    | .wouldBlock => .ok { s with fdTable := update s.fdTable fd (some (.read a)) }
    | .reply valid =>
        (closeIdent a s).map fun s =>
          let s := if valid then sendheader (s.request a).client .finId s else s
          if (s.request a).dnsPending then s else finish a s

/-- `auth_connect_callback` -/
def authConnectCallback (a : Nat) (res : IdentConnect) (s : AuthSt) : Except AuthFault AuthSt :=
  if .freed a ∈ s.log then .error .useAfterFree
  else
    match res with
    | .failed => authError a s
    | .connected recv =>
        let s := s.setRequest a { s.request a with connecting := false, pending := true }
        match (s.request a).fd with
        | none => .error .badFd
        | some fd => readAuthReply fd a recv s

/-- `comm_connect_callback` -/
def commConnectCallback (fd : Nat) (res : IdentConnect) (s : AuthSt) : Except AuthFault AuthSt :=
  match s.fdTable fd with
  | some (.connect a) =>
      authConnectCallback a res { s with fdTable := update s.fdTable fd (some .idle) }
  | _ => .ok s

/-- `comm_connect_tcp`, with the result if there is one at once. -/
def commConnectTcp (fd a : Nat) (res : Option IdentConnect) (s : AuthSt) :
    Except AuthFault AuthSt :=
  let s := { s with fdTable := update s.fdTable fd (some (.connect a)) }
  match res with
  | none => .ok s
  | some res => commConnectCallback fd res s

/-- `start_auth_query`. A descriptor that is opened and closed again leaves
nothing. -/
def startAuthQuery (a : Nat) (start : IdentStart) (s : AuthSt) : Except AuthFault AuthSt :=
  let c := (s.request a).client
  match start with
  | .noSocket | .tooHigh => .ok (note (.identOver c) s)
  | .blocking => .ok (note (.identOver c) (sendheader c .doId s))
  | .socket fd res =>
      if (s.fdTable fd).isSome then .error .notCalled
      else
        let s := sendheader c .doId s
        let s := s.setRequest a { s.request a with fd := some fd, connecting := true }
        commConnectTcp fd a res s

/-! ## A client comes -/

/-- The client has had a request. -/
def started (c : Nat) (s : AuthSt) : Bool :=
  (List.range s.made).any fun a => (s.request a).client = c

/-- `start_auth`, for a query that the resolver takes or does not. -/
def startAuth (c : Nat) (timeofday : Int) (submitted : Bool) (start : IdentStart) (s : AuthSt) :
    Except AuthFault AuthSt :=
  let a := s.made
  let s := { s with made := s.made + 1 }
  let s := s.setRequest a ⟨c, false, false, false, none, timeofday + connectTimeout⟩
  let s := sendheader c .doDns s
  let s := { s with
    dnsQuery := update s.dnsQuery c (some submitted)
    adns := update s.adns c (if submitted then some a else none) }
  let s := s.setRequest a { s.request a with dnsPending := true }
  (startAuthQuery a start s).map fun s => { s with pollList := a :: s.pollList }

/-! ## Time runs out -/

/-- `timeout_auth_queries_event` finds that the time of a request is over. -/
def timeOut (a : Nat) (s : AuthSt) : Except AuthFault AuthSt :=
  let auth := s.request a
  let c := auth.client
  (if auth.fd.isSome then fdClose auth.fd s else .ok s).bind fun s =>
    let s := if auth.doingAuth then sendheader c .failId s else s
    (if auth.dnsPending then
        (deleteAdnsQueries c s).bind fun s =>
          if (s.dnsQuery c).isNone then .error .nullDeref
          else .ok (sendheader c .failDns { s with dnsQuery := update s.dnsQuery c (some false) })
      else .ok s).map fun s =>
        finish a (note (.timedOut c) s)

/-- The loop of `timeout_auth_queries_event`. -/
def timeoutLoop (timeofday : Int) : List Nat → AuthSt → Except AuthFault AuthSt
  | [], s => .ok s
  | a :: rest, s =>
      if .freed a ∈ s.log then .error .useAfterFree
      else if (s.request a).timeout < timeofday then
        (timeOut a s).bind (timeoutLoop timeofday rest)
      else timeoutLoop timeofday rest s

/-- `timeout_auth_queries_event` -/
def timeoutAuthQueriesEvent (timeofday : Int) (s : AuthSt) : Except AuthFault AuthSt :=
  timeoutLoop timeofday s.pollList s

/-! ## A client exits -/

/-- The loop of `delete_identd_queries`. Nothing is ever linked to the other
list that it goes through. -/
def deleteLoop (target : Nat) : List Nat → AuthSt → Except AuthFault AuthSt
  | [], s => .ok s
  | a :: rest, s =>
      if .freed a ∈ s.log then .error .useAfterFree
      else if (s.request a).client = target then
        (if (s.request a).fd.isSome then fdClose (s.request a).fd s else .ok s).bind fun s =>
          deleteLoop target rest (note (.freed a) { s with pollList := s.pollList.erase a })
      else deleteLoop target rest s

/-- `delete_identd_queries` -/
def deleteIdentdQueries (target : Nat) (s : AuthSt) : Except AuthFault AuthSt :=
  deleteLoop target s.pollList s

/-- What `exit_client` does of this. -/
def exitClient (c : Nat) (s : AuthSt) : Except AuthFault AuthSt :=
  (deleteAdnsQueries c (note (.exited c) s)).bind (deleteIdentdQueries c)

end AuthSt

/-! ## The machine -/

inductive AuthOp
  | startAuth (c : Nat) (timeofday : Int) (submitted : Bool) (start : IdentStart)
  | dnsAnswer (c : Nat) (answer : DnsAnswer)
  | connectDone (fd : Nat) (res : IdentConnect)
  | readReady (fd : Nat) (recv : IdentRead)
  | timeoutEvent (timeofday : Int)
  | exitClient (c : Nat)
deriving DecidableEq, Repr

namespace AuthSt

/-- A client starts once, and exits once; the resolver answers what it was
asked, and a descriptor is ready if something waits for it. -/
def step (s : AuthSt) : AuthOp → Except AuthFault AuthSt
  | .startAuth c timeofday submitted start =>
      if s.started c then .error .notCalled else startAuth c timeofday submitted start s
  | .dnsAnswer c answer =>
      match s.adns c with
      | none => .error .notCalled
      | some a =>
          -- `dns_do_callbacks` clears `query` first.
          authDnsCallback a answer { s with
            adns := update s.adns c none
            dnsQuery := update s.dnsQuery c ((s.dnsQuery c).map fun _ => false) }
  | .connectDone fd res =>
      match s.fdTable fd with
      | some (.connect _) => commConnectCallback fd res s
      | _ => .error .notCalled
  | .readReady fd recv =>
      match s.fdTable fd with
      | some (.read a) =>
          readAuthReply fd a recv { s with fdTable := update s.fdTable fd (some .idle) }
      | _ => .error .notCalled
  | .timeoutEvent timeofday => timeoutAuthQueriesEvent timeofday s
  | .exitClient c =>
      if s.started c ∧ .exited c ∉ s.log then exitClient c s else .error .notCalled

end AuthSt

end TrIrcd
