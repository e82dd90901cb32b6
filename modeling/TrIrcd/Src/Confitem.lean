import Mathlib.Logic.Function.Basic

/-!
# `src/confitem.c` and `src/class.c`: confs and their classes

A conf is on `GlobalConfItemList`, and on the list of every client it is
attached to; a class is on `ConnectionClasses`, and confs point to it. Confs
and classes are named by the order in which they were made, so what has been
freed keeps its name, and `freed` and `classesFreed` say which of them have
been. A call that reads what has been freed before it has no meaning (`Readable`).
`check_class` goes on from the `next` of a class that it has just freed, and what
it reads there is a parameter.

A configuration file is what is left of it after parsing, the classes it
declares and the confs that it puts on the list. What matching and connecting
use of a conf is left out, and listeners are.
-/

namespace TrIrcd

open Function (update)

/-- `CONF_CLIENT` -/
def confClient : UInt32 := 0x1

/-- `CONF_OPERATOR` -/
def confOperator : UInt32 := 0x8

/-- `CONF_CLIENT_MASK`: clients, services and servers. -/
def confClientMask : UInt32 := 0x7

/-- `CONF_ILLEGAL` -/
def confIllegal : UInt32 := 0x80000000

/-- `NOT_AUTHORIZED` -/
def notAuthorized : Int := -1

/-- `MAXSENDQLENGTH` -/
def maxSendqLength : Int := 5050000

/-- Where C gives a call no meaning. -/
inductive ConfFault
  | dangling
  | nullDeref
deriving DecidableEq, Repr

/-- What reading gives behind a `free`: it has no meaning, or what was there is there
still. -/
inductive FreedRead
  | undefined
  | kept
deriving DecidableEq, Repr

structure ConfItem where
  status : UInt32
  /-- How many local clients use it. -/
  clients : Int
  /-- `class` -/
  connClass : Option Nat

/-- `IsIllegal` -/
def ConfItem.illegal (aconf : ConfItem) : Bool := aconf.status &&& confIllegal ≠ 0

/-- The links of its class count the clients of the conf. -/
def ConfItem.counted (aconf : ConfItem) : Bool := aconf.status &&& confClientMask ≠ 0

structure ConnClass where
  number : Int
  pingFrequency : Int
  connectFrequency : Int
  maxConnections : Int
  maxSendq : Int
  links : Int

/-- A class as a file declares it, or as `add_class` is called. -/
structure ClassDecl where
  num : Int
  ping : Int
  confreq : Int
  maxli : Int
  sendq : Int

/-- A conf as a file declares it: its `status`, which is that of its block, and the
number of its class if there is one. -/
structure ConfDecl where
  status : UInt32
  number : Option Int
  legal : status &&& confIllegal = 0

structure ConfFile where
  classes : List ClassDecl
  confs : List ConfDecl

structure ConfSt where
  conf : Nat → ConfItem
  /-- How many confs have been made. -/
  made : Nat
  /-- The confs that `free_conf` was called for, the latest first. -/
  freed : List Nat
  /-- `GlobalConfItemList` -/
  list : List Nat
  /-- The `confs` of all clients: each client with a conf of its, the latest
  first. -/
  confs : List (Nat × Nat)
  cls : Nat → ConnClass
  classesMade : Nat
  classesFreed : List Nat
  /-- `ConnectionClasses` -/
  classes : List Nat

namespace ConfSt

/-- `initclass` -/
def init : ConfSt where
  conf _ := ⟨0, 0, none⟩
  made := 0
  freed := []
  list := []
  confs := []
  cls _ := ⟨0, 120, 600, 1, maxSendqLength, 0⟩
  classesMade := 1
  classesFreed := []
  classes := [0]

def setConf (a : Nat) (aconf : ConfItem) (s : ConfSt) : ConfSt :=
  { s with conf := update s.conf a aconf }

def setClass (k : Nat) (cl : ConnClass) (s : ConfSt) : ConfSt :=
  { s with cls := update s.cls k cl }

/-- `free_conf` -/
def freeConf (a : Nat) (s : ConfSt) : ConfSt := { s with freed := a :: s.freed }

/-- `free_class` -/
def freeClass (k : Nat) (s : ConfSt) : ConfSt := { s with classesFreed := k :: s.classesFreed }

/-! ## Classes -/

/-- `find_class`, which answers the first class for a number that no class has. -/
def findClass (cclass : Int) (s : ConfSt) : Nat :=
  (s.classes.find? fun k => (s.cls k).number = cclass).getD (s.classes.headD 0)

/-- `add_class` -/
def addClass (s : ConfSt) (d : ClassDecl) : ConfSt :=
  if d.num = 0 then s
  else
    let sendq := if 0 < d.sendq then d.sendq else maxSendqLength
    let tmp := findClass d.num s
    if s.classes.head? = some tmp then
      let new := s.classesMade
      { s with
        cls := update s.cls new ⟨d.num, d.ping, d.confreq, d.maxli, sendq, 0⟩
        classesMade := new + 1
        classes := s.classes.take 1 ++ new :: s.classes.tail }
    else s.setClass tmp ⟨d.num, d.ping, d.confreq, d.maxli, sendq, (s.cls tmp).links⟩

/-- A class whose limit is negative is freed if nothing is linked to it, and its
`next` is read then. -/
def freeUnused (F : FreedRead) (k : Nat) (s : ConfSt) : Except ConfFault ConfSt :=
  if (s.cls k).links ≤ 0 then
    match F with
    | .undefined => .error .dangling
    | .kept => .ok (freeClass k s)
  else .ok s

/-- The loop of `check_class` behind the first class: the classes that stay. -/
def checkLoop (F : FreedRead) : List Nat → ConfSt → Except ConfFault (List Nat × ConfSt)
  | [], s => .ok ([], s)
  | k :: rest, s =>
      if (s.cls k).maxConnections < 0 then (freeUnused F k s).bind (checkLoop F rest)
      else (checkLoop F rest s).map fun (stay, s) => (k :: stay, s)

/-- `check_class`. The first class never leaves the list. -/
def checkClass (F : FreedRead) (s : ConfSt) : Except ConfFault ConfSt :=
  match s.classes with
  | [] => .ok s
  | k :: rest =>
      (if (s.cls k).maxConnections < 0 then freeUnused F k s else .ok s).bind fun s =>
        (checkLoop F rest s).map fun (stay, s) => { s with classes := k :: stay }

/-! ## Attaching -/

/-- `attach_conf` -/
def attachConf (c a : Nat) (s : ConfSt) : Except ConfFault (Int × ConfSt) :=
  if (c, a) ∈ s.confs then .ok (1, s)
  else if (s.conf a).illegal then .ok (notAuthorized, s)
  else
    let s := { s with confs := (c, a) :: s.confs }
    let s := s.setConf a { s.conf a with clients := (s.conf a).clients + 1 }
    if (s.conf a).counted then
      match (s.conf a).connClass with
      | none => .error .nullDeref
      | some k => .ok (0, s.setClass k { s.cls k with links := (s.cls k).links + 1 })
    else .ok (0, s)

/-- What `detach_conf` does with the class of the conf. -/
def unlinkClass (a : Nat) (s : ConfSt) : ConfSt :=
  match (s.conf a).connClass with
  | none => s
  | some k =>
      let s :=
        if (s.conf a).counted ∧ 0 < (s.cls k).links then
          s.setClass k { s.cls k with links := (s.cls k).links - 1 }
        else s
      if (s.cls k).maxConnections = -1 ∧ (s.cls k).links = 0 then
        (freeClass k s).setConf a { s.conf a with connClass := none }
      else s

/-- What it does with the conf itself. -/
def unlinkConf (c a : Nat) (s : ConfSt) : ConfSt :=
  let s := s.setConf a { s.conf a with clients := (s.conf a).clients - 1 }
  let s := if (s.conf a).clients = 0 ∧ (s.conf a).illegal then freeConf a s else s
  { s with confs := s.confs.erase (c, a) }

/-- `detach_conf` -/
def detachConf (c a : Nat) (s : ConfSt) : Int × ConfSt :=
  if (c, a) ∈ s.confs then (0, unlinkConf c a (unlinkClass a s)) else (-1, s)

/-! ## Rehashing -/

/-- `aconf->status |= CONF_ILLEGAL` -/
def markIllegal (a : Nat) (s : ConfSt) : ConfSt :=
  s.setConf a { s.conf a with status := (s.conf a).status ||| confIllegal }

/-- The loop of `read_conf_files` over the confs: those that stay on the list. -/
def clearLoop : List Nat → ConfSt → List Nat × ConfSt
  | [], s => ([], s)
  | a :: rest, s =>
      if (s.conf a).clients ≠ 0 then
        let off := (s.conf a).status &&& confClient = 0
        let (stay, s) := clearLoop rest (markIllegal a s)
        if off then (stay, s) else (a :: stay, s)
      else clearLoop rest (freeConf a s)

/-- The old configuration is emptied: confs in use are made illegal, all others
are freed. -/
def clearConfs (s : ConfSt) : ConfSt :=
  let (stay, s) := clearLoop s.list s
  { s with list := stay }

/-- All classes but the first are marked for deletion. -/
def markClasses (s : ConfSt) : ConfSt :=
  { s with cls := fun k =>
      if k ∈ s.classes.tail then { s.cls k with maxConnections := -1 } else s.cls k }

/-- The class a new conf gets, by its number in the file and
`conf_add_class_to_conf`. -/
def confAddClassToConf (number : Option Int) (s : ConfSt) : Nat :=
  match number with
  | none => findClass 0 s
  | some number =>
      let k := findClass number s
      if (s.cls k).maxConnections < 0 then findClass 0 s else k

/-- `make_conf`, and `conf_add_conf`. -/
def confAddConf (s : ConfSt) (d : ConfDecl) : ConfSt :=
  { s with
    conf := update s.conf s.made ⟨d.status, 0, some (confAddClassToConf d.number s)⟩
    made := s.made + 1
    list := s.made :: s.list }

/-- `read_conf_files(0)`, if there is a file. -/
def readConfFiles (F : FreedRead) (file : Option ConfFile) (s : ConfSt) :
    Except ConfFault ConfSt :=
  match file with
  | none => .ok s
  | some file =>
      let s := markClasses (clearConfs s)
      (checkClass F (file.classes.foldl addClass s)).map fun s => file.confs.foldl confAddConf s

/-- The loop of `flush_deleted_I_P`. -/
def flushLoop : List Nat → ConfSt → List Nat × ConfSt
  | [], s => ([], s)
  | a :: rest, s =>
      if (s.conf a).illegal then
        flushLoop rest (if (s.conf a).clients = 0 then freeConf a s else s)
      else
        let (stay, s) := flushLoop rest s
        (a :: stay, s)

/-- `flush_deleted_I_P` -/
def flushDeletedIP (s : ConfSt) : ConfSt :=
  let (stay, s) := flushLoop s.list s
  { s with list := stay }

end ConfSt

/-! ## The machine -/

inductive ConfOp
  | attachConf (c a : Nat)
  | detachConf (c a : Nat)
  | readConfFiles (file : Option ConfFile)
  | addClass (d : ClassDecl)
  | checkClass
  | flushDeletedIP

namespace ConfSt

/-- The conf has been made and not been freed. -/
def Live (s : ConfSt) (a : Nat) : Prop := a < s.made ∧ a ∉ s.freed

def LiveClass (s : ConfSt) (k : Nat) : Prop := k < s.classesMade ∧ k ∉ s.classesFreed

instance (s : ConfSt) (a : Nat) : Decidable (s.Live a) := inferInstanceAs (Decidable (_ ∧ _))

instance (s : ConfSt) (k : Nat) : Decidable (s.LiveClass k) := inferInstanceAs (Decidable (_ ∧ _))

/-- What the call reads has not been freed. -/
def Readable (s : ConfSt) : ConfOp → Prop
  | .attachConf c a => s.Live a ∧ ((c, a) ∉ s.confs → ¬(s.conf a).illegal →
      (s.conf a).counted → ∀ k ∈ (s.conf a).connClass, s.LiveClass k)
  | .detachConf c a => (c, a) ∈ s.confs → s.Live a ∧ ∀ k ∈ (s.conf a).connClass, s.LiveClass k
  | .readConfFiles none => True
  | .readConfFiles (some _) => (∀ a ∈ s.list, s.Live a) ∧ ∀ k ∈ s.classes, s.LiveClass k
  | .addClass d => d.num ≠ 0 → ∀ k ∈ s.classes, s.LiveClass k
  | .checkClass => ∀ k ∈ s.classes, s.LiveClass k
  | .flushDeletedIP => ∀ a ∈ s.list, s.Live a

instance (s : ConfSt) : ∀ op, Decidable (s.Readable op)
  | .attachConf _ _ => inferInstanceAs (Decidable (_ ∧ _))
  | .detachConf _ _ => inferInstanceAs (Decidable (_ → _))
  | .readConfFiles none => .isTrue trivial
  | .readConfFiles (some _) => inferInstanceAs (Decidable (_ ∧ _))
  | .addClass _ => inferInstanceAs (Decidable (_ → ∀ k ∈ _, _))
  | .checkClass => inferInstanceAs (Decidable (∀ k ∈ _, _))
  | .flushDeletedIP => inferInstanceAs (Decidable (∀ a ∈ _, _))

def step (F : FreedRead) (s : ConfSt) (op : ConfOp) : Except ConfFault ConfSt :=
  if s.Readable op then
    match op with
    | .attachConf c a => (attachConf c a s).map (·.2)
    | .detachConf c a => .ok (detachConf c a s).2
    | .readConfFiles file => readConfFiles F file s
    | .addClass d => .ok (addClass s d)
    | .checkClass => checkClass F s
    | .flushDeletedIP => .ok (flushDeletedIP s)
  else .error .dangling

end ConfSt

end TrIrcd
