import Mathlib.Data.List.Basic

/-!
# `src/event.c`: the event table

`event_table` is an array of `MAX_EVENTS` entries and `event_max` the number
of entries handed out so far. Function and argument pointers are addresses,
`none` for `NULL`. The clock `timeofday` is an argument of the functions that
read it, and so is the number `random()` answers.

An access outside the array is an outcome of its own, as is the call of
`exit`.

The functions in the table belong to the rest of the server. `eventRun` takes
what the function in a slot does as an argument, which may also move the clock,
as `recheck_clock` does.
-/

namespace TrIrcd

/-- `struct ev_entry`, without the link nothing uses. -/
structure EvEntry where
  func : Option Nat
  arg : Option Nat
  name : Option String
  frequency : Int
  when : Int
  active : Bool
deriving DecidableEq

/-- An entry of a static array before anything is written to it. -/
def EvEntry.zero : EvEntry where
  func := none
  arg := none
  name := none
  frequency := 0
  when := 0
  active := false

/-- `MAX_EVENTS` -/
def maxEvents : Nat := 50

structure EventSt where
  eventTable : List EvEntry
  eventMax : Nat
  eventTimeMin : Int
deriving DecidableEq

/-- Why an event function does not return. -/
inductive EventFault
  | exit
  | outOfBounds
deriving DecidableEq

def EventSt.init : EventSt where
  eventTable := List.replicate maxEvents EvEntry.zero
  eventMax := 0
  eventTimeMin := -1

/-- `eventAdd` -/
def eventAdd (timeofday : Int) (name : String) (func arg : Option Nat) (when : Int)
    (s : EventSt) : Except EventFault EventSt :=
  if s.eventMax > maxEvents then .error .exit
  else if s.eventMax < s.eventTable.length then
    let entry : EvEntry :=
      { func := func
        arg := arg
        name := some name
        frequency := when
        when := timeofday + when
        active := true }
    .ok {
      eventTable := s.eventTable.set s.eventMax entry
      eventMax := s.eventMax + 1
      eventTimeMin :=
        if entry.when < s.eventTimeMin ∨ s.eventTimeMin = -1 then entry.when
        else s.eventTimeMin }
  else .error .outOfBounds

/-- `eventAddIsh` -/
def eventAddIsh (timeofday : Int) (random : Nat) (name : String)
    (func arg : Option Nat) (deltaIsh : Int) (s : EventSt) :
    Except EventFault EventSt :=
  let deltaIsh :=
    if deltaIsh ≥ 3 then
      let twoThird := (2 * deltaIsh).tdiv 3
      twoThird + (((random % 1000 : Nat) : Int) * twoThird).tdiv 1000
    else deltaIsh
  eventAdd timeofday name func arg deltaIsh s

/-- `eventFind`: the first of the entries handed out with this function and
argument. -/
def eventFind (func arg : Option Nat) (s : EventSt) : Option Nat :=
  (s.eventTable.take s.eventMax).findIdx? fun e => e.func = func ∧ e.arg = arg

/-- `eventDelete` -/
def eventDelete (func arg : Option Nat) (s : EventSt) : EventSt :=
  match eventFind func arg s with
  | none => s
  | some i => { s with
      eventTable := s.eventTable.modify i fun e =>
        { e with name := none, func := none, arg := none, active := false } }

/-- An entry of `eventRun`: the clock and the table afterwards. -/
def eventRunSlot (call : Nat → Int → EventSt → Except EventFault (Int × EventSt)) (i : Nat)
    (timeofday : Int) (s : EventSt) : Except EventFault (Int × EventSt) :=
  match s.eventTable[i]? with
  | none => .error .outOfBounds
  | some e =>
      if e.active ∧ e.when ≤ timeofday then
        (call i timeofday s).map fun (timeofday, s) =>
          (timeofday, { s with
            eventTable := s.eventTable.modify i fun e =>
              { e with when := timeofday + e.frequency }
            eventTimeMin := -1 })
      else .ok (timeofday, s)

/-- The loop of `eventRun` from the entry `i` on. `event_max` is read anew each
time; `slots` entries are left in the array. -/
def eventRunLoop (call : Nat → Int → EventSt → Except EventFault (Int × EventSt)) :
    Nat → Nat → Int → EventSt → Except EventFault EventSt
  | 0, i, _, s => if i < s.eventMax then .error .outOfBounds else .ok s
  | slots + 1, i, timeofday, s =>
      if i < s.eventMax then
        (eventRunSlot call i timeofday s).bind fun (timeofday, s) =>
          eventRunLoop call slots (i + 1) timeofday s
      else .ok s

/-- `eventRun` -/
def eventRun (call : Nat → Int → EventSt → Except EventFault (Int × EventSt))
    (timeofday : Int) (s : EventSt) : Except EventFault EventSt :=
  if s.eventMax = 0 then .ok s else eventRunLoop call maxEvents 0 timeofday s

/-- The loop of `eventNextTime`, from a value of `event_time_min` on. -/
def scanTimes (eventTimeMin : Int) (entries : List EvEntry) : Int :=
  entries.foldl (fun eventTimeMin e =>
    if e.active ∧ (e.when < eventTimeMin ∨ eventTimeMin = -1) then e.when else eventTimeMin)
    eventTimeMin

/-- `eventNextTime` -/
def eventNextTime (timeofday : Int) (s : EventSt) : Int × EventSt :=
  if s.eventMax = 0 then (timeofday + 1, s)
  else
    let eventTimeMin :=
      if s.eventTimeMin = -1 then scanTimes s.eventTimeMin (s.eventTable.take s.eventMax)
      else s.eventTimeMin
    (eventTimeMin, { s with eventTimeMin := eventTimeMin })

/-- `set_back_events`; the argument is called `by` there. -/
def setBackEvents (back : Int) (s : EventSt) : EventSt :=
  { s with
    eventTable := (s.eventTable.take s.eventMax).map (fun e =>
      { e with when := if e.when > back then e.when - back else 0 }) ++
        s.eventTable.drop s.eventMax }

/-- The entries handed out that wait to be run. -/
def EventSt.activeEvents (s : EventSt) : Nat :=
  (s.eventTable.take s.eventMax).countP EvEntry.active

/-- Stands for the address of `check_splitmode`; the event deletes itself. -/
def checkSplitmodePtr : Option Nat := some 1

end TrIrcd
