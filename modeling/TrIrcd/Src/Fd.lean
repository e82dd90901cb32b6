import Mathlib.Logic.Function.Basic
import Mathlib.Data.Option.Basic

/-!
# `src/fd.c`, and the timeouts of `server/s_bsd.c`

`fd_table` is a function: that an index is within the array is not part of the
model. Handlers and data are addresses, `none` for `NULL`. A function answers
`none` where an assertion fails. `m` is `MAXCONNECTIONS`, which the
configuration sets. The selection of descriptors and their names are left out.
`FdCount` adds their number, and says which assertion it is that fails.
-/

namespace TrIrcd

/-- The types of a descriptor. -/
inductive FdType
  | none | log | file | fileClose | socket | pipe | unknown
deriving DecidableEq

/-- `struct _fde`. Nothing sets `closing`. -/
structure Fde where
  type : FdType
  isOpen : Bool
  closing : Bool
  timeoutHandler : Option Nat
  timeoutData : Option Nat
  timeout : Int
  flushHandler : Option Nat
  flushData : Option Nat
  flushTimeout : Int
deriving DecidableEq

/-- An entry that `memset` has cleared. -/
def Fde.zero : Fde where
  type := .none
  isOpen := false
  closing := false
  timeoutHandler := none
  timeoutData := none
  timeout := 0
  flushHandler := none
  flushData := none
  flushTimeout := 0

structure FdSt where
  fdTable : Nat → Fde
  highestFd : Int

namespace FdSt

def init : FdSt where
  fdTable _ := Fde.zero
  highestFd := -1

def set (s : FdSt) (fd : Nat) (F : Fde) : FdSt :=
  { s with fdTable := Function.update s.fdTable fd F }

@[simp] theorem set_self (s : FdSt) (fd : Nat) (F : Fde) : (s.set fd F).fdTable fd = F :=
  Function.update_self ..

theorem set_of_ne (s : FdSt) {fd fd' : Nat} (F : Fde) (h : fd' ≠ fd) :
    (s.set fd F).fdTable fd' = s.fdTable fd' :=
  Function.update_of_ne h ..

@[simp] theorem set_highestFd (s : FdSt) (fd : Nat) (F : Fde) :
    (s.set fd F).highestFd = s.highestFd := rfl

/-! ## Opening and closing -/

/-- The loop of `fdlist_update_biggest`: the last open descriptor before `n`. -/
def lastOpen (fdTable : Nat → Fde) : Nat → Int
  | 0 => -1
  | n + 1 => if (fdTable n).isOpen then n else lastOpen fdTable n

/-- `fdlist_update_biggest` -/
def updateBiggest (m fd : Nat) (opening : Bool) (s : FdSt) : Option FdSt :=
  if fd < s.highestFd then some s
  else if ¬ fd < m then none
  else if fd > s.highestFd then
    if opening then some { s with highestFd := fd } else none
  else if opening then none
  else some { s with highestFd := lastOpen s.fdTable (fd + 1) }

/-- `fd_close` -/
def fdClose (m fd : Nat) (s : FdSt) : Option FdSt :=
  if (s.fdTable fd).isOpen ∧ (s.fdTable fd).type ≠ .file then
    ((s.set fd { s.fdTable fd with isOpen := false }).updateBiggest m fd false).map
      fun s => s.set fd Fde.zero
  else none

/-- `file_close` -/
def fileClose (m fd : Nat) (s : FdSt) : Option FdSt :=
  if (s.fdTable fd).type = .file then
    (s.set fd { s.fdTable fd with type := .fileClose }).fdClose m fd
  else none

/-- `fd_open` -/
def fdOpen (m fd : Nat) (type : FdType) (s : FdSt) : Option FdSt :=
  (if (s.fdTable fd).isOpen then s.fdClose m fd else some s).bind fun s =>
    (s.set fd { s.fdTable fd with type := type, isOpen := true }).updateBiggest m fd true

/-! ## Timeouts -/

/-- `comm_settimeout` -/
def commSettimeout (timeofday : Int) (fd : Nat) (timeout : Int) (callback cbdata : Option Nat)
    (s : FdSt) : Option FdSt :=
  if (s.fdTable fd).isOpen then
    some (s.set fd { s.fdTable fd with
      timeout := timeofday + timeout.tdiv 1000
      timeoutHandler := callback
      timeoutData := cbdata })
  else none

/-- `comm_setflush` -/
def commSetflush (timeofday : Int) (fd : Nat) (timeout : Int) (callback cbdata : Option Nat)
    (s : FdSt) : FdSt :=
  if fd < 1 then s
  else s.set fd { s.fdTable fd with
    flushTimeout := timeofday + timeout.tdiv 1000
    flushHandler := callback
    flushData := cbdata }

end FdSt

/-! ## The number of descriptors -/

/-- The assertions of `fd_open` and `fd_close`, and those of
`fdlist_update_biggest`. -/
inductive FdAssertion
  | openOpen | closeClosed | closeFile | updateBiggest
deriving DecidableEq

/-- The table, and `number_fd`. -/
structure FdCount where
  fds : FdSt
  numberFd : Int

namespace FdCount

def init : FdCount where
  fds := FdSt.init
  numberFd := 0

/-- `fd_close` -/
def fdClose (m fd : Nat) (s : FdCount) : Except FdAssertion FdCount :=
  let F := s.fds.fdTable fd
  if ¬ F.isOpen then .error .closeClosed
  else if F.type = .file then .error .closeFile
  else match (s.fds.set fd { F with isOpen := false }).updateBiggest m fd false with
    | none => .error .updateBiggest
    | some fds => .ok { fds := fds.set fd Fde.zero, numberFd := s.numberFd - 1 }

/-- `fd_open` -/
def fdOpen (m fd : Nat) (type : FdType) (s : FdCount) : Except FdAssertion FdCount :=
  (if (s.fds.fdTable fd).isOpen then s.fdClose m fd else .ok s).bind fun s =>
    let F := s.fds.fdTable fd
    if F.isOpen then .error .openOpen
    else match (s.fds.set fd { F with type := type, isOpen := true }).updateBiggest m fd true with
      | none => .error .updateBiggest
      | some fds => .ok { fds := fds, numberFd := s.numberFd + 1 }

end FdCount

/-- What the server does to the descriptors. -/
inductive FdOp
  | fdOpen (fd : Nat) (type : FdType)
  | fdClose (fd : Nat)
  | fileClose (fd : Nat)
  | settimeout (fd : Nat) (timeout : Int) (callback cbdata : Option Nat)
  | setflush (fd : Nat) (timeout : Int) (callback cbdata : Option Nat)
deriving DecidableEq

namespace FdSt

def step (m : Nat) (timeofday : Int) (s : FdSt) : FdOp → Option FdSt
  | .fdOpen fd type => s.fdOpen m fd type
  | .fdClose fd => s.fdClose m fd
  | .fileClose fd => s.fileClose m fd
  | .settimeout fd timeout callback cbdata => s.commSettimeout timeofday fd timeout callback cbdata
  | .setflush fd timeout callback cbdata =>
      some (s.commSetflush timeofday fd timeout callback cbdata)

/-- Calls in a row. One whose assertion fails would end the server: nobody makes
it, and it is left out. -/
def perform (m : Nat) (timeofday : Int) (s : FdSt) (ops : List FdOp) : FdSt :=
  ops.foldl (fun s op => (s.step m timeofday op).getD s) s

end FdSt

inductive TimerKind
  | flush | timeout
deriving DecidableEq

/-- A call `hdl(fd, data)`, and which of the two handlers it is. -/
structure FdCall where
  kind : TimerKind
  hdl : Nat
  fd : Nat
  data : Option Nat
deriving DecidableEq

/-- What a handler does to the descriptors and to the rest of the server, after
what it finds there. -/
abbrev FdHandlers (σ : Type) := Nat → Nat → Option Nat → FdSt → σ → List FdOp × σ

/-- The descriptors, the rest of the server, and the calls made so far. -/
structure TimeoutSt (σ : Type) where
  fds : FdSt
  rest : σ
  calls : List FdCall

namespace TimeoutSt

variable {σ : Type} (act : FdHandlers σ) (m : Nat) (timeofday : Int)

/-- A handler is called. -/
def call (s : TimeoutSt σ) (c : FdCall) : TimeoutSt σ :=
  let (ops, rest) := act c.hdl c.fd c.data s.fds s.rest
  { fds := s.fds.perform m timeofday ops
    rest := rest
    calls := s.calls ++ [c] }

/-- `check flush functions` -/
def checkFlush (fd : Nat) (s : TimeoutSt σ) : TimeoutSt σ :=
  let F := s.fds.fdTable fd
  match F.flushHandler with
  | none => s
  | some hdl =>
      if 0 < F.flushTimeout ∧ F.flushTimeout < timeofday then
        let data := F.flushData
        let s := { s with fds := s.fds.commSetflush timeofday fd 0 none none }
        s.call act m timeofday ⟨.flush, hdl, fd, data⟩
      else s

/-- `check timeouts`. The data are those of the entry after the registration has
been cleared. -/
def checkTimeout (fd : Nat) (s : TimeoutSt σ) : Option (TimeoutSt σ) :=
  let F := s.fds.fdTable fd
  match F.timeoutHandler with
  | none => some s
  | some hdl =>
      if 0 < F.timeout ∧ F.timeout < timeofday then
        (s.fds.commSettimeout timeofday fd 0 none none).map fun fds =>
          let s := { s with fds := fds }
          s.call act m timeofday ⟨.timeout, hdl, fd, (s.fds.fdTable fd).timeoutData⟩
      else some s

/-- The loop of `comm_checktimeouts` from `fd` on. `highest_fd` is read anew each
time; there are `n` descriptors left. -/
def checkLoop : Nat → Nat → TimeoutSt σ → Option (TimeoutSt σ)
  | 0, fd, s => if fd ≤ s.fds.highestFd then none else some s
  | n + 1, fd, s =>
      if fd ≤ s.fds.highestFd then
        let F := s.fds.fdTable fd
        (if ¬ F.isOpen ∨ F.closing then some s
          else (s.checkFlush act m timeofday fd).checkTimeout act m timeofday fd).bind
            (checkLoop n (fd + 1))
      else some s

/-- `comm_checktimeouts` -/
def commChecktimeouts (s : TimeoutSt σ) : Option (TimeoutSt σ) :=
  s.checkLoop act m timeofday m 0

end TimeoutSt

end TrIrcd
