import TrIrcd.Src.Tools

/-!
# `server/s_dcc.c`, `server/s_accept.c`: who may send to whom

A user keeps six dlink lists: who it allows to send files and who allows it,
whom it accepts messages from and who accepts its own, whom it was informed of
and who was informed of it. The two files hold the same functions for the
three pairs of lists, which are here once, and each function is one of them at
its own lists, limit and notices.

Users are numbers, and `persons` those that `IsPerson` accepts. A name that
leaves is free to be taken by a new user, whose lists `make_user` clears.
-/

namespace TrIrcd

open Function (update)
open TrIrcd.Lib

/-- `MAXDCCALLOW` -/
def maxDccallow : Nat := 10

/-- `MAXACCEPTED` -/
def maxAccepted : Nat := 20

/-- The three pairs of lists. -/
inductive Allow
  | dccallow | accepted | acceptInformed
deriving DecidableEq

/-- The lists of a user: `dccallow`, `accepted`, `accept_informed`, and the
lists that answer them: `allowed_by`, `accepted_by`, `accept_informed_by`. -/
inductive AllowList
  | given (a : Allow) (cptr : Nat)
  | givenBy (a : Allow) (cptr : Nat)
deriving DecidableEq

/-- What is sent to `sptr`, about `cptr`. -/
inductive AllowMsg
  | tooMany (a : Allow) (sptr cptr max : Nat)
  | addedTo (a : Allow) (sptr cptr : Nat)
  | removedFrom (a : Allow) (sptr cptr : Nat)
  | signingOff (a : Allow) (sptr cptr : Nat)
  | notAccepting (sptr : Nat)
  | hasAttempted (sptr cptr : Nat)
deriving DecidableEq

structure AllowSt where
  dl : Dlinks AllowList Nat
  persons : List Nat
  /-- The latest first. -/
  sent : List AllowMsg

inductive AllowFault
  | notCalled
deriving DecidableEq

namespace AllowSt

def send (m : AllowMsg) (s : AllowSt) : AllowSt := { s with sent := m :: s.sent }

/-- The body of `add_dccallow` and `accept_client`. -/
def add (A : Allocator) (a : Allow) (max sptr cptr : Nat) (s : AllowSt) : AllowSt :=
  if cptr ∉ s.persons ∨ sptr ∉ s.persons then s
  else
    let cnt := (dlinkData (.given a sptr) s.dl).length
    if (dlinkFind (.given a sptr) (· = cptr) s.dl).isSome then s
    else if max ≤ cnt + 1 then s.send (.tooMany a sptr cptr max)
    else
      let dl := dlinkAddNew A cptr (.given a sptr) s.dl
      { s with dl := dlinkAddNew A sptr (.givenBy a cptr) dl }.send (.addedTo a sptr cptr)

/-- The body of `del_dccallow` and `deny_client`. -/
def del (a : Allow) (sptr optr : Nat) (s : AllowSt) : AllowSt :=
  let dl := dlinkDeleteFirst (.given a sptr) (· = optr) s.dl
  { s with dl := dlinkDeleteFirst (.givenBy a optr) (· = sptr) dl }.send (.removedFrom a sptr optr)

/-- The inner loops of the cleanup functions: all nodes of `list` that hold
`sptr` go, each after its link was read. -/
def unlinkLoop (list : AllowList) (sptr : Nat) (note : List AllowMsg) :
    Nat → Option Nat → AllowSt → AllowSt
  | 0, _, s => s
  | _ + 1, none, s => s
  | fuel + 1, some tmp, s =>
      let nextTmp := s.dl.next tmp
      unlinkLoop list sptr note fuel nextTmp <|
        if s.dl.data tmp = sptr then
          { s with dl := dlinkDeleteNode tmp list s.dl, sent := note ++ s.sent }
        else s

/-- The outer loops: for each client on a list of `sptr`, `sptr` goes from the
list that answers it, and then the node. -/
def removeLoop (own : AllowList) (other : Nat → AllowList) (note : Nat → List AllowMsg)
    (sptr : Nat) : Nat → Option Nat → AllowSt → AllowSt
  | 0, _, s => s
  | _ + 1, none, s => s
  | fuel + 1, some lp, s =>
      let nextlp := s.dl.next lp
      let acptr := s.dl.data lp
      let s := unlinkLoop (other acptr) sptr (note acptr) s.dl.used.length
        (s.dl.head (other acptr)) s
      removeLoop own other note sptr fuel nextlp { s with dl := dlinkDeleteNode lp own s.dl }

/-- A loop over the clients `sptr` allows. -/
def removeGiven (a : Allow) (sptr : Nat) (s : AllowSt) : AllowSt :=
  removeLoop (.given a sptr) (.givenBy a) (fun _ => []) sptr s.dl.used.length (s.dl.head (.given a sptr)) s

/-- A loop over the clients that allow `sptr`. -/
def removeGivenBy (a : Allow) (note : Nat → List AllowMsg) (sptr : Nat) (s : AllowSt) : AllowSt :=
  removeLoop (.givenBy a sptr) (.given a) note sptr s.dl.used.length (s.dl.head (.givenBy a sptr)) s

/-! ## `s_dcc.c` -/

/-- `add_dccallow` -/
def addDccallow (A : Allocator) (sptr cptr : Nat) (s : AllowSt) : AllowSt :=
  s.add A .dccallow maxDccallow sptr cptr

/-- `del_dccallow` -/
def delDccallow (sptr optr : Nat) (s : AllowSt) : AllowSt := s.del .dccallow sptr optr

/-- `remove_dcc_references` -/
def removeDccReferences (sptr : Nat) (s : AllowSt) : AllowSt :=
  (s.removeGiven .dccallow sptr).removeGivenBy .dccallow
    (fun acptr => [.signingOff .dccallow acptr sptr]) sptr

/-! ## `s_accept.c` -/

/-- `accept_client` -/
def acceptClient (A : Allocator) (sptr cptr : Nat) (s : AllowSt) : AllowSt :=
  s.add A .accepted maxAccepted sptr cptr

/-- `deny_client` -/
def denyClient (sptr optr : Nat) (s : AllowSt) : AllowSt := s.del .accepted sptr optr

/-- `remove_accept_references` -/
def removeAcceptReferences (sptr : Nat) (s : AllowSt) : AllowSt :=
  let s := (s.removeGiven .accepted sptr).removeGivenBy .accepted
    (fun acptr => [.signingOff .accepted acptr sptr]) sptr
  (s.removeGiven .acceptInformed sptr).removeGivenBy .acceptInformed (fun _ => []) sptr

/-- `check_accept`, with what `MyClient(to)`, `IsDenyPrivmsg(to)` and
`IsPrivileged(from)` say. -/
def checkAccept (A : Allocator) (source target : Nat) (myClient denyPrivmsg privileged : Bool)
    (s : AllowSt) : Bool × AllowSt :=
  if !myClient then (true, s)
  else if !denyPrivmsg then (true, s)
  else if privileged then (true, s)
  else if (dlinkFind (.given .accepted target) (· = source) s.dl).isSome then (true, s)
  else if (dlinkFind (.given .acceptInformed target) (· = source) s.dl).isSome then (false, s)
  else
    let s := (s.send (.notAccepting source)).send (.hasAttempted target source)
    let dl := dlinkAddNew A source (.given .acceptInformed target) s.dl
    (false, { s with dl := dlinkAddNew A target (.givenBy .acceptInformed source) dl })

end AllowSt

/-! ## The machine

Users come and go, and call the functions on each other. Those that read
`->user` without a test are called for users. -/

inductive AllowOp
  | makeUser (cptr : Nat)
  | addDccallow (sptr cptr : Nat)
  | delDccallow (sptr optr : Nat)
  | acceptClient (sptr cptr : Nat)
  | denyClient (sptr optr : Nat)
  | checkAccept (source target : Nat) (myClient denyPrivmsg privileged : Bool)
  | exit (cptr : Nat)

namespace AllowSt

def init : AllowSt where
  dl := Dlinks.empty 0
  persons := []
  sent := []

/-- The lists of a user, as `make_user` leaves them. -/
def clearLists (cptr : Nat) (D : Dlinks AllowList Nat) : Dlinks AllowList Nat :=
  [Allow.dccallow, .accepted, .acceptInformed].foldl
    (fun D a => clearDlinkList (.givenBy a cptr) (clearDlinkList (.given a cptr) D)) D

def step (A : Allocator) (s : AllowSt) : AllowOp → Except AllowFault AllowSt
  | .makeUser cptr =>
      if cptr ∈ s.persons then .error .notCalled
      else .ok { s with dl := clearLists cptr s.dl, persons := cptr :: s.persons }
  | .addDccallow sptr cptr => .ok (s.addDccallow A sptr cptr)
  | .delDccallow sptr optr =>
      if sptr ∈ s.persons ∧ optr ∈ s.persons then .ok (s.delDccallow sptr optr)
      else .error .notCalled
  | .acceptClient sptr cptr => .ok (s.acceptClient A sptr cptr)
  | .denyClient sptr optr =>
      if sptr ∈ s.persons ∧ optr ∈ s.persons then .ok (s.denyClient sptr optr)
      else .error .notCalled
  | .checkAccept source target myClient denyPrivmsg privileged =>
      if source ∈ s.persons ∧ target ∈ s.persons then
        .ok (s.checkAccept A source target myClient denyPrivmsg privileged).2
      else .error .notCalled
  | .exit cptr =>
      if cptr ∈ s.persons then
        let s := (s.removeDccReferences cptr).removeAcceptReferences cptr
        .ok { s with persons := s.persons.erase cptr }
      else .error .notCalled

end AllowSt

end TrIrcd
