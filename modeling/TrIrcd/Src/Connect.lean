import TrIrcd.Lib.Rotation
import TrIrcd.Src.Confitem

/-!
# `src/server/s_serv.c`: connecting to servers

`try_connections` goes through `GlobalConfItemList`, chooses one connect block and
moves it to the end of the list, by a pointer to the pointer it is at. A conf is
named by the order in which it was made, and a pointer to a pointer by the conf
whose `next` it points to, or by none for the list itself.

Which servers are linked, and the classes, are what they are at the time of a call
(`ConnectCall`); the list and the hold times stay from one call to the next.
-/

namespace TrIrcd

open Function (update)

/-- `CONF_SERVER` -/
def confServer : UInt32 := 0x2

/-- `CONNECTFREQUENCY` -/
def connectFrequencyDefault : Int := 600

inductive ConnectFault
  | nullDeref
  /-- A loop has not come to its end. -/
  | endless
deriving DecidableEq, Repr

/-- What `try_connections` uses of a conf. -/
structure ConnectConf where
  status : UInt32
  /-- `CONF_FLAGS_ALLOW_AUTO_CONN` -/
  autoConn : Bool
  name : List UInt8
  hold : Int
  port : Int
  /-- `class` -/
  connClass : Option Nat
deriving DecidableEq

structure ConnectSt where
  conf : Nat → ConnectConf
  next : Nat → Option Nat
  /-- `GlobalConfItemList` -/
  list : Option Nat
  /-- How many confs have been made. -/
  made : Nat

/-- The time of a call, and what else there is then. -/
structure ConnectCall where
  timeofday : Int
  findServer : List UInt8 → Option Nat
  cls : Nat → ConnClass

/-- A connect block that can be used. -/
def ConnectConf.connectable (aconf : ConnectConf) : Bool :=
  aconf.status &&& confServer ≠ 0 && 0 < aconf.port

namespace ConnectCall

/-- `get_con_freq` -/
def getConFreq (c : ConnectCall) (clptr : Option Nat) : Int :=
  match clptr with
  | some k => (c.cls k).connectFrequency
  | none => connectFrequencyDefault

/-- `!client_p && cltmp->links < cltmp->max_connections` -/
def unlinked (c : ConnectCall) (aconf : ConnectConf) : Except ConnectFault Bool :=
  if (c.findServer aconf.name).isSome then .ok false
  else
    match aconf.connClass with
    | none => .error .nullDeref
    | some k => .ok ((c.cls k).links < (c.cls k).maxConnections)

end ConnectCall

/-- The earlier of two times, the first of which is 0 if there is none yet. -/
def earlier (next hold : Int) : Int := if hold < next ∨ next = 0 then hold else next

/-- The variables of `try_connections` that its first loop sets. -/
structure ConnectScan where
  conf : Nat → ConnectConf
  conConf : Option Nat
  next : Int

/-- What the first loop does about a conf. -/
def ConnectScan.see (c : ConnectCall) (s : ConnectScan) (a : Nat) :
    Except ConnectFault ConnectScan :=
  let aconf := s.conf a
  if !aconf.connectable then .ok s
  else if c.timeofday < aconf.hold then .ok { s with next := earlier s.next aconf.hold }
  else do
    let hold := c.timeofday + c.getConFreq aconf.connClass
    let unlinked ← c.unlinked aconf
    .ok
      { conf := update s.conf a { aconf with hold := hold }
        conConf := if unlinked && s.conConf.isNone then some a else s.conConf
        next := earlier s.next hold }

/-- What a call leaves: `con_conf`, whether `serv_connect` is called for it, and the
time of `next`. -/
structure ConnectTry where
  conConf : Option Nat
  connects : Bool
  next : Int
deriving DecidableEq, Repr

namespace ConnectSt

/-- The first loop. -/
def scan (c : ConnectCall) (next : Nat → Option Nat) :
    Nat → Option Nat → ConnectScan → Except ConnectFault ConnectScan
  | 0, _, _ => .error .endless
  | _ + 1, none, s => .ok s
  | fuel + 1, some a, s => do scan c next fuel (next a) (← s.see c a)

/-- `*pconf` -/
def deref (pconf : Option Nat) (s : ConnectSt) : Option Nat :=
  match pconf with
  | none => s.list
  | some a => s.next a

/-- `*pconf = v` -/
def store (pconf v : Option Nat) (s : ConnectSt) : ConnectSt :=
  match pconf with
  | none => { s with list := v }
  | some a => { s with next := update s.next a v }

/-- The second loop, which takes `con_conf` off the list and goes on behind it:
`pconf`, and the list. -/
def unhook (conConf : Nat) : Nat → Option Nat → ConnectSt →
    Except ConnectFault (Option Nat × ConnectSt)
  | 0, _, _ => .error .endless
  | fuel + 1, pconf, s =>
      match s.deref pconf with
      | none => .ok (pconf, s)
      | some aconf =>
          let s := if aconf = conConf then s.store pconf (s.next aconf) else s
          unhook conConf fuel (some aconf) s

/-- `con_conf` is put to the end of the list, if it is not there. -/
def moveLast (conConf : Nat) (s : ConnectSt) : Except ConnectFault ConnectSt :=
  match s.next conConf with
  | none => .ok s
  | some _ => do
      let (pconf, s) ← unhook conConf (s.made + 1) none s
      .ok ((s.store pconf (some conConf)).store (some conConf) none)

/-- `try_connections` -/
def tryConnections (c : ConnectCall) (s : ConnectSt) :
    Except ConnectFault (ConnectTry × ConnectSt) := do
  let done ← scan c s.next (s.made + 1) s.list ⟨s.conf, none, 0⟩
  let s := { s with conf := done.conf }
  match done.conConf with
  | none => .ok (⟨none, false, done.next⟩, s)
  | some conConf => do
      let s ← s.moveLast conConf
      .ok (⟨some conConf, (s.conf conConf).autoConn, done.next⟩, s)

/-- Calls one after another: what each has chosen. -/
def tryAll : List ConnectCall → ConnectSt → Except ConnectFault (List (Option Nat) × ConnectSt)
  | [], s => .ok ([], s)
  | c :: calls, s => do
      let (chosen, s) ← s.tryConnections c
      let (rest, s) ← tryAll calls s
      .ok (chosen.conConf :: rest, s)

end ConnectSt

end TrIrcd
